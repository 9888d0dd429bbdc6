import Kolibri.Lib.Run
import Kolibri.Lib.Threads

/-! # Reader/writer semaphores (`core/sync.inc`)

A call is one step up to `popfd` or `change_task`. A writer that comes back from `change_task` looks at the
count again, a reader does not. `count` is a number here: it is -1 or the number of readers.
-/

namespace Kolibri.Rwsem

open Run Threads Function

/-- `granted` is a reader that `up_write` has let in and that has not run since. -/
inductive Place
  | out
  | waitingForRead
  | waitingForWrite
  | granted
  | reading
  | writing
  deriving DecidableEq

inductive Kind
  | write
  | read
  deriving DecidableEq

structure State (τ : Type*) where
  cpu : Cpu τ
  count : Int
  waitList : List (τ × Kind)
  place : τ → Place

variable {τ : Type*}

def initRwsem (cpu : Cpu τ) : State τ where
  cpu
  count := 0
  waitList := []
  place _ := .out

section Calls

variable [DecidableEq τ] (s : State τ)

/-- `next` runs if the thread has to wait. -/
def downRead (t : τ) (next : Option τ) : State τ :=
  if 0 ≤ s.count ∧ s.waitList = [] then
    { s with count := s.count + 1, place := update s.place t .reading }
  else
    { s with
        cpu := (s.cpu.setRunning t false).switch next
        waitList := s.waitList ++ [(t, .read)]
        place := update s.place t .waitingForRead }

/-- A round of `.forever`. A thread that gets the semaphore stays in the state it is in. -/
def forever (t : τ) (next : Option τ) : State τ :=
  if s.count = 0 then
    { s with count := -1, waitList := s.waitList.erase (t, .write), place := update s.place t .writing }
  else
    { s with cpu := (s.cpu.setRunning t false).switch next, place := update s.place t .waitingForWrite }

def downWrite (t : τ) (next : Option τ) : State τ :=
  forever { s with cpu := s.cpu.setRunning t false, waitList := s.waitList ++ [(t, .write)] } t next

def upRead (t : τ) : State τ :=
  let count := s.count - 1
  { s with
      count
      cpu :=
        match s.waitList with
        | [] => s.cpu
        | (w, _) :: _ => if count = 0 then s.cpu.setRunning w true else s.cpu
      place := update s.place t .out }

/-- The readers in front of the first writer, and the rest. -/
def leadingReaders : List (τ × Kind) → List τ × List (τ × Kind)
  | (w, .read) :: l => (w :: (leadingReaders l).1, (leadingReaders l).2)
  | l => ([], l)

def upWrite (t : τ) : State τ :=
  let s := { s with count := 0, place := update s.place t .out }
  match s.waitList with
  | [] => s
  | (w, .write) :: _ => { s with cpu := s.cpu.setRunning w true }
  | (_, .read) :: _ =>
    let (woken, waitList) := leadingReaders s.waitList
    { s with
        cpu := s.cpu.wake woken
        waitList
        count := s.count + woken.length
        place := fun u => if u ∈ woken then .granted else s.place u }

/-! ## Runs -/

inductive Event (τ : Type*)
  | downRead (t : τ) (next : Option τ)
  | downWrite (t : τ) (next : Option τ)
  | again (t : τ) (next : Option τ)
  /-- `change_task` returns in `down_read`. -/
  | resume (t : τ)
  | upRead (t : τ)
  | upWrite (t : τ)
  | interrupt (next : Option τ)

def step : Event τ → State τ × Unit
  | .downRead t next => (downRead s t next, ())
  | .downWrite t next => (downWrite s t next, ())
  | .again t next => (forever s t next, ())
  | .resume t => ({ s with place := update s.place t .reading }, ())
  | .upRead t => (upRead s t, ())
  | .upWrite t => (upWrite s t, ())
  | .interrupt next => ({ s with cpu := s.cpu.switch next }, ())

def Interruptible : Prop :=
  match s.cpu.current with
  | none => True
  | some t => s.place t = .out ∨ s.place t = .reading ∨ s.place t = .writing

/-- A reader returns from `down_read` whenever it is picked. -/
def Enabled : Event τ → Prop
  | .downRead t next =>
    s.cpu.current = some t ∧ s.place t = .out ∧ (s.cpu.setRunning t false).CanRun next
  | .downWrite t next =>
    s.cpu.current = some t ∧ s.place t = .out ∧ (s.cpu.setRunning t false).CanRun next
  | .again t next =>
    s.cpu.current = some t ∧ s.place t = .waitingForWrite ∧ (s.cpu.setRunning t false).CanRun next
  | .resume t => s.cpu.current = some t ∧ (s.place t = .granted ∨ s.place t = .waitingForRead)
  | .upRead t => s.cpu.current = some t ∧ s.place t = .reading
  | .upWrite t => s.cpu.current = some t ∧ s.place t = .writing
  | .interrupt next => Interruptible s ∧ s.cpu.CanRun next

instance (s : State τ) : Decidable (Interruptible s) := by
  unfold Interruptible
  split <;> infer_instance

instance (s : State τ) : (e : Event τ) → Decidable (Enabled s e)
  | .downRead _ _ => inferInstanceAs (Decidable (_ ∧ _ ∧ _))
  | .downWrite _ _ => inferInstanceAs (Decidable (_ ∧ _ ∧ _))
  | .again _ _ => inferInstanceAs (Decidable (_ ∧ _ ∧ _))
  | .resume _ => inferInstanceAs (Decidable (_ ∧ (_ ∨ _)))
  | .upRead _ => inferInstanceAs (Decidable (_ ∧ _))
  | .upWrite _ => inferInstanceAs (Decidable (_ ∧ _))
  | .interrupt _ => inferInstanceAs (Decidable (_ ∧ _))

end Calls

/-! ## The invariant -/

def Reads (p : Place) : Prop := p = .reading ∨ p = .granted

instance : DecidablePred Reads := fun _ => inferInstanceAs (Decidable (_ ∨ _))

variable [Fintype τ]

/-- The first of the list is a reader only while there is a writer, so `up_read` never wakes a reader. -/
structure Inv (s : State τ) : Prop where
  writer : ∀ t, s.place t = .writing → s.count = -1 ∧ tally Reads s.place = 0 ∧ ∀ u, s.place u = .writing → u = t
  readers : (∀ t, s.place t ≠ .writing) → s.count = tally Reads s.place
  listed : ∀ t, ((t, .read) ∈ s.waitList ↔ s.place t = .waitingForRead) ∧
    ((t, .write) ∈ s.waitList ↔ s.place t = .waitingForWrite)
  nodup : s.waitList.Nodup
  first : ∀ t l, s.waitList = (t, .read) :: l → s.count = -1
  asleep : ∀ t, s.place t = .waitingForRead → s.cpu.running t = false
  current : ∀ t, s.cpu.current = some t → s.place t ≠ .waitingForRead

theorem init_rwsem_inv (cpu : Cpu τ) : Inv (initRwsem cpu) := by
  have htally : tally Reads (initRwsem cpu).place = 0 := tally_eq_zero.mpr (by simp [initRwsem, Reads])
  refine ⟨?_, fun _ => by rw [htally]; rfl, ?_, ?_, ?_, ?_, ?_⟩ <;> simp [initRwsem]

variable {s : State τ} {t : τ} {next : Option τ}

theorem Inv.no_writer (I : Inv s) (hc : 0 ≤ s.count) : ∀ u, s.place u ≠ .writing := by
  intro u hu
  have hcount := (I.writer u hu).1
  omega

theorem Inv.count_neg (I : Inv s) (hc : ¬ 0 ≤ s.count) : s.count = -1 := by
  by_cases hw : ∃ u, s.place u = .writing
  · obtain ⟨u, hu⟩ := hw
    exact (I.writer u hu).1
  · have hcount := I.readers fun u hu => hw ⟨u, hu⟩
    omega

theorem Inv.awake (I : Inv s) {u : τ} (hu : s.cpu.running u = true) : s.place u ≠ .waitingForRead := by
  intro hplace
  rw [I.asleep u hplace] at hu
  cases hu

theorem Inv.notMem (I : Inv s) (hr : s.place t ≠ .waitingForRead) (hw : s.place t ≠ .waitingForWrite) (k : Kind) :
    (t, k) ∉ s.waitList := by
  cases k with
  | read => exact fun hm => hr ((I.listed t).1.mp hm)
  | write => exact fun hm => hw ((I.listed t).2.mp hm)

omit [Fintype τ] in
theorem nodup_append_single {l : List (τ × Kind)} {w : τ × Kind} (hl : l.Nodup) (hw : w ∉ l) : (l ++ [w]).Nodup := by
  rw [List.nodup_append]
  refine ⟨hl, List.nodup_singleton w, fun a ha b hb he => ?_⟩
  rw [List.mem_singleton] at hb
  exact hw (hb ▸ he ▸ ha)

variable [DecidableEq τ]

/-! ## `down_read` and `down_write` -/

theorem down_read_inv (I : Inv s) (ht : s.place t = .out) (hnext : (s.cpu.setRunning t false).CanRun next) :
    Inv (downRead s t next) := by
  have htally : ∀ x, tally Reads (update s.place t x) = tally Reads s.place + if Reads x then 1 else 0 := by
    intro x
    have hone := tally_update (p := Reads) (f := s.place) t x
    simpa [ht, Reads] using hone
  have hout : ∀ k, (t, k) ∉ s.waitList := I.notMem (by simp [ht]) (by simp [ht])
  unfold downRead
  by_cases hfast : 0 ≤ s.count ∧ s.waitList = []
  · rw [if_pos hfast]
    have hno := I.no_writer hfast.1
    have hcount := I.readers hno
    have hplace : ∀ u, update s.place t .reading u ≠ .writing := by
      intro u
      by_cases hu : u = t
      · simp [hu]
      · simp [hu, hno u]
    refine ⟨fun u hu => absurd hu (hplace u), fun _ => ?_, fun u => ?_, I.nodup, fun u l hl => ?_, fun u hu => ?_,
      fun u hu => ?_⟩
    · rw [htally]
      simp [Reads, hcount]
    · by_cases hu : u = t
      · simp [hu, hout]
      · simpa [hu] using I.listed u
    · simp only [hfast.2] at hl
      cases hl
    · by_cases hut : u = t
      · simp [hut] at hu
      · exact I.asleep u (by simpa [hut] using hu)
    · by_cases hut : u = t
      · simp [hut]
      · simpa [hut] using I.current u hu
  rw [if_neg hfast]
  have hplace : ∀ u, update s.place t .waitingForRead u = .writing ↔ s.place u = .writing := by
    intro u
    by_cases hu : u = t
    · simp [hu, ht]
    · simp [hu]
  have htally' : tally Reads (update s.place t .waitingForRead) = tally Reads s.place := by simp [htally, Reads]
  refine ⟨fun u hu => ?_, fun hno => ?_, fun u => ?_, nodup_append_single I.nodup (hout _), fun u l hl => ?_,
    fun u hu => ?_, fun u hu => ?_⟩
  · obtain ⟨hc, hr, hone⟩ := I.writer u ((hplace u).mp hu)
    exact ⟨hc, by rw [htally', hr], fun v hv => hone v ((hplace v).mp hv)⟩
  · simp only [ne_eq, hplace] at hno
    rw [htally']
    exact I.readers hno
  · by_cases hu : u = t
    · simp [hu, hout]
    · simpa [hu] using I.listed u
  · cases hw : s.waitList with
    | nil => exact I.count_neg fun hc => hfast ⟨hc, hw⟩
    | cons w l' =>
      simp only [hw, List.cons_append, List.cons.injEq] at hl
      exact I.first u l' (by rw [hw, hl.1])
  · by_cases hut : u = t
    · simp [hut]
    · simpa [hut] using I.asleep u (by simpa [hut] using hu)
  · -- The thread that runs now.
    have hu' : next = some u := hu
    rw [hu'] at hnext
    obtain ⟨hrun, hut⟩ := running_of_suspend hnext
    simpa [hut] using I.awake hrun

theorem forever_inv
    (hwriter : ∀ u, s.place u = .writing → s.count = -1 ∧ tally Reads s.place = 0 ∧ ∀ v, s.place v = .writing → v = u)
    (hreaders : (∀ u, s.place u ≠ .writing) → s.count = tally Reads s.place)
    (hlisted : ∀ u, u ≠ t → ((u, .read) ∈ s.waitList ↔ s.place u = .waitingForRead) ∧
      ((u, .write) ∈ s.waitList ↔ s.place u = .waitingForWrite))
    (hnodup : s.waitList.Nodup) (hfirst : ∀ u l, s.waitList = (u, .read) :: l → s.count = -1)
    (hasleep : ∀ u, s.place u = .waitingForRead → s.cpu.running u = false)
    (hself : (t, .write) ∈ s.waitList ∧ (t, .read) ∉ s.waitList) (hcur : s.cpu.current = some t)
    (ht : s.place t = .out ∨ s.place t = .waitingForWrite)
    (hnext : (s.cpu.setRunning t false).CanRun next) : Inv (forever s t next) := by
  have htally : ∀ x, ¬ Reads x → tally Reads (update s.place t x) = tally Reads s.place := by
    intro x hx
    have hone := tally_update (p := Reads) (f := s.place) t x
    have htr : ¬ Reads (s.place t) := by rcases ht with ht | ht <;> simp [ht, Reads]
    simpa [hx, htr] using hone
  unfold forever
  by_cases hc : s.count = 0
  · -- Nobody has the semaphore.
    rw [if_pos hc]
    have hno : ∀ u, s.place u ≠ .writing := by
      intro u hu
      have hcount := (hwriter u hu).1
      omega
    have hzero : tally Reads s.place = 0 := by
      have hcount := hreaders hno
      omega
    have hplace : ∀ u, update s.place t .writing u = .writing ↔ u = t := by
      intro u
      by_cases hu : u = t
      · simp [hu]
      · simp [hu, hno u]
    refine ⟨fun u hu => ?_, fun hnw => ?_, fun u => ?_, hnodup.erase _, fun u l hl => rfl, fun u hu => ?_, fun u hu => ?_⟩
    · refine ⟨rfl, ?_, fun v hv => ?_⟩
      · rw [htally _ (by simp [Reads]), hzero]
      · rw [(hplace v).mp hv, (hplace u).mp hu]
    · exact absurd ((hplace t).mpr rfl) (hnw t)
    · simp only [hnodup.mem_erase_iff]
      by_cases hu : u = t
      · simp [hu, hself.2]
      · simpa [hu] using hlisted u hu
    · by_cases hut : u = t
      · simp [hut] at hu
      · exact hasleep u (by simpa [hut] using hu)
    · obtain rfl : t = u := Option.some.inj (hcur.symm.trans hu)
      simp
  · rw [if_neg hc]
    have hplace : ∀ u, update s.place t .waitingForWrite u = .writing ↔ s.place u = .writing := by
      intro u
      by_cases hu : u = t
      · rcases ht with ht | ht <;> simp [hu, ht]
      · simp [hu]
    refine ⟨fun u hu => ?_, fun hnw => ?_, fun u => ?_, hnodup, hfirst, fun u hu => ?_, fun u hu => ?_⟩
    · obtain ⟨hcount, hr, hone⟩ := hwriter u ((hplace u).mp hu)
      exact ⟨hcount, by rw [htally _ (by simp [Reads]), hr], fun v hv => hone v ((hplace v).mp hv)⟩
    · simp only [ne_eq, hplace] at hnw
      rw [htally _ (by simp [Reads])]
      exact hreaders hnw
    · by_cases hu : u = t
      · simp [hu, hself]
      · simpa [hu] using hlisted u hu
    · by_cases hut : u = t
      · simp [hut] at hu
      · simpa [hut] using hasleep u (by simpa [hut] using hu)
    · have hu' : next = some u := hu
      rw [hu'] at hnext
      obtain ⟨hrun, hut⟩ := running_of_suspend hnext
      intro hwait
      have hsleep := hasleep u (by simpa [hut] using hwait)
      rw [hsleep] at hrun
      cases hrun

theorem down_write_inv (I : Inv s) (hcur : s.cpu.current = some t) (ht : s.place t = .out)
    (hnext : (s.cpu.setRunning t false).CanRun next) : Inv (downWrite s t next) := by
  have hout : ∀ k, (t, k) ∉ s.waitList := I.notMem (by simp [ht]) (by simp [ht])
  refine forever_inv I.writer I.readers (fun u hu => ?_) (nodup_append_single I.nodup (hout _)) (fun u l hl => ?_)
    (fun u hu => ?_) ?_ hcur (.inl ht) ?_
  · simpa [hu] using I.listed u
  · cases hw : s.waitList with
    | nil => simp [hw] at hl
    | cons w l' =>
      simp only [hw, List.cons_append, List.cons.injEq] at hl
      exact I.first u l' (by rw [hw, hl.1])
  · by_cases hut : u = t
    · simp [hut]
    · simpa [hut] using I.asleep u hu
  · simp [hout]
  · cases next with
    | none => trivial
    | some u =>
      obtain ⟨hrun, hut⟩ := running_of_suspend hnext
      simpa [Cpu.CanRun, hut] using hrun

theorem again_inv (I : Inv s) (hcur : s.cpu.current = some t) (ht : s.place t = .waitingForWrite)
    (hnext : (s.cpu.setRunning t false).CanRun next) : Inv (forever s t next) := by
  refine forever_inv I.writer I.readers (fun u _ => I.listed u) I.nodup I.first I.asleep ?_ hcur (.inr ht) hnext
  exact ⟨(I.listed t).2.mpr ht, fun hm => by simpa [ht] using (I.listed t).1.mp hm⟩

/-! ## `up_read` and `up_write` -/

theorem up_read_inv (I : Inv s) (ht : s.place t = .reading) : Inv (upRead s t) := by
  have hno : ∀ u, s.place u ≠ .writing := by
    intro u hu
    have hnone := tally_eq_zero.mp (I.writer u hu).2.1 t
    exact hnone (.inl ht)
  have hcount := I.readers hno
  have htally : tally Reads (update s.place t .out) + 1 = tally Reads s.place := by
    have hone := tally_update (p := Reads) (f := s.place) t .out
    simpa [ht, Reads] using hone
  have hplace : ∀ u, u ≠ t → update s.place t .out u = s.place u := fun u hu => update_of_ne hu ..
  have hwait : ∀ u p, p ≠ .out → p ≠ .reading → (update s.place t .out u = p ↔ s.place u = p) := by
    intro u p hp hp'
    by_cases hu : u = t
    · simp [hu, ht, Ne.symm hp, Ne.symm hp']
    · rw [hplace u hu]
  -- The first waiter is a writer.
  have hfirst : ∀ w l, s.waitList ≠ (w, .read) :: l := by
    intro w l hl
    have hneg := I.first w l hl
    omega
  refine ⟨fun u hu => ?_, fun _ => ?_, fun u => ?_, I.nodup, fun w l hl => absurd hl (hfirst w l), fun u hu => ?_,
    fun u hu => ?_⟩
  · exact absurd ((hwait u _ (by simp) (by simp)).mp hu) (hno u)
  · show s.count - 1 = tally Reads (update s.place t .out)
    omega
  · show (_ ∈ s.waitList ↔ update s.place t .out u = _) ∧ (_ ∈ s.waitList ↔ update s.place t .out u = _)
    rw [hwait u _ (by simp) (by simp), hwait u _ (by simp) (by simp)]
    exact I.listed u
  · have hu' : s.place u = .waitingForRead := (hwait u _ (by simp) (by simp)).mp hu
    have hsleep := I.asleep u hu'
    unfold upRead
    rcases hl : s.waitList with _ | ⟨⟨w, _ | _⟩, l⟩
    · exact hsleep
    · have huw : u ≠ w := by
        rintro rfl
        have hw := (I.listed u).2.mp (by rw [hl]; simp)
        simp [hu'] at hw
      simp only
      split_ifs
      · simpa [huw] using hsleep
      · exact hsleep
    · exact absurd hl (hfirst w l)
  · have hcur : (upRead s t).cpu.current = s.cpu.current := by
      unfold upRead
      simp only
      split
      · rfl
      · split_ifs <;> rfl
    rw [hcur] at hu
    exact fun hw => I.current u hu ((hwait u _ (by simp) (by simp)).mp hw)

omit [Fintype τ] [DecidableEq τ] in
theorem leading_readers_append (l : List (τ × Kind)) :
    l = (leadingReaders l).1.map (fun w => (w, Kind.read)) ++ (leadingReaders l).2 ∧
      ∀ w l', (leadingReaders l).2 ≠ (w, .read) :: l' := by
  induction l with
  | nil => simp [leadingReaders]
  | cons w l ih =>
    obtain ⟨w, k⟩ := w
    cases k with
    | read => simpa [leadingReaders] using ih
    | write => simp [leadingReaders]

theorem leave_inv (I : Inv s) (ht : s.place t = .writing) {s' : State τ} (woken : List τ)
    (hl : s.waitList = woken.map (fun w => (w, Kind.read)) ++ s'.waitList) (hrest : ∀ w l, s'.waitList ≠ (w, .read) :: l)
    (hcount : s'.count = woken.length) (hplace : ∀ u, s'.place u = if u ∈ woken then .granted else update s.place t .out u)
    (hcur : s'.cpu.current = s.cpu.current)
    (hrun : ∀ u, u ∉ woken → s.place u = .waitingForRead → s'.cpu.running u = false) : Inv s' := by
  obtain ⟨-, hzero, hone⟩ := I.writer t ht
  have hwoken : ∀ u ∈ woken, s.place u = .waitingForRead := by
    intro u hu
    exact (I.listed u).1.mp (by rw [hl]; simp [hu])
  have hnodup := I.nodup
  rw [hl, List.nodup_append] at hnodup
  obtain ⟨hn, hnrest, hdisj⟩ := hnodup
  have hout : t ∉ woken := fun hm => by simpa [ht] using hwoken t hm
  have hne : ∀ u ∈ woken, u ≠ t := by
    rintro u hu rfl
    exact hout hu
  have hself : s'.place t = .out := by simp [hplace, hout]
  have hgranted : ∀ u ∈ woken, s'.place u = .granted := fun u hu => by simp [hplace, hu]
  have hother : ∀ u, u ∉ woken → u ≠ t → s'.place u = s.place u := fun u hu hut => by simp [hplace, hu, hut]
  -- Where a thread can be now.
  have hcases : ∀ u, u ∈ woken ∨ u = t ∨ (u ∉ woken ∧ u ≠ t) := by
    intro u
    tauto
  have hnow : ∀ u, s'.place u ≠ .writing := by
    intro u
    rcases hcases u with hu | rfl | ⟨hu, hut⟩
    · simp [hgranted u hu]
    · simp [hself]
    · rw [hother u hu hut]
      exact fun h => hut (hone u h)
  have htally : tally Reads (update s.place t .out) = 0 := by
    refine tally_eq_zero.mpr fun u => ?_
    by_cases hut : u = t
    · simp [hut, Reads]
    · simpa [hut] using tally_eq_zero.mp hzero u
  refine ⟨fun u hu => absurd hu (hnow u), fun _ => ?_, fun u => ?_, hnrest, fun w l he => absurd he (hrest w l),
    fun u hu => ?_, fun u hu => ?_⟩
  · rw [show s'.place = _ from funext hplace, tally_list (List.Nodup.of_map _ hn) (by simp [Reads]), htally, hcount]
    · simp
    · intro u hu
      simp [hne u hu, hwoken u hu, Reads]
  · have hold := I.listed u
    rw [hl] at hold
    rcases hcases u with hu | rfl | ⟨hu, hut⟩
    · have hrd : (u, Kind.read) ∉ s'.waitList := fun hm => hdisj _ (List.mem_map_of_mem hu) _ hm rfl
      simp [hwoken u hu] at hold
      simp [hgranted u hu, hrd, hold]
    · simp [hout, ht] at hold
      simp [hself, hold]
    · simp [hu] at hold
      simpa [hother u hu hut] using hold
  · rcases hcases u with hmem | rfl | ⟨hmem, hut⟩
    · simp [hgranted u hmem] at hu
    · simp [hself] at hu
    · exact hrun u hmem (by rw [← hother u hmem hut, hu])
  · rw [hcur] at hu
    rcases hcases u with hmem | rfl | ⟨hmem, hut⟩
    · simp [hgranted u hmem]
    · simp [hself]
    · rw [hother u hmem hut]
      exact I.current u hu

theorem up_write_inv (I : Inv s) (ht : s.place t = .writing) : Inv (upWrite s t) := by
  have happ := leading_readers_append s.waitList
  unfold upWrite
  match hl : s.waitList with
  | [] =>
    exact leave_inv I ht [] (by simp [hl]) (by simp) rfl (by simp) rfl fun u _ => I.asleep u
  | (w, .write) :: l =>
    refine leave_inv I ht [] (by simp [hl]) (by simp) rfl (by simp) rfl fun u _ hu => ?_
    have huw : u ≠ w := by
      rintro rfl
      have hw := (I.listed u).2.mp (by rw [hl]; simp)
      simp [hu] at hw
    simpa [huw] using I.asleep u hu
  | (w, .read) :: l =>
    rw [hl] at happ
    refine leave_inv I ht _ (hl.trans happ.1) happ.2 (by simp) (fun u => rfl) rfl fun u hu hw => ?_
    simp [wake_running, I.asleep u hw, hu, decide_false, Bool.or_false]

/-! ## Every run -/

theorem step_inv (s : State τ) (e : Event τ) (I : Inv s) (he : Enabled s e) : Inv (step s e).1 := by
  cases e with
  | downRead t next => exact down_read_inv I he.2.1 he.2.2
  | downWrite t next => exact down_write_inv I he.1 he.2.1 he.2.2
  | again t next => exact again_inv I he.1 he.2.1 he.2.2
  | resume t =>
    have ht : s.place t = .granted := he.2.resolve_right (I.current t he.1)
    have hplace : ∀ u p, p ≠ .granted → p ≠ .reading → (update s.place t .reading u = p ↔ s.place u = p) := by
      intro u p hp hp'
      by_cases hu : u = t
      · simp [hu, ht, Ne.symm hp, Ne.symm hp']
      · simp [hu]
    have htally : tally Reads (update s.place t .reading) = tally Reads s.place := by
      have hone := tally_update (p := Reads) (f := s.place) t .reading
      simpa [ht, Reads] using hone
    refine ⟨fun u hu => ?_, fun hno => ?_, fun u => ?_, I.nodup, I.first, fun u hu => ?_, fun u hu hw => ?_⟩
    · obtain ⟨hc, hr, hone⟩ := I.writer u ((hplace u _ (by simp) (by simp)).mp hu)
      exact ⟨hc, htally.trans hr, fun v hv => hone v ((hplace v _ (by simp) (by simp)).mp hv)⟩
    · refine (I.readers fun u hu => hno u ((hplace u _ (by simp) (by simp)).mpr hu)).trans ?_
      exact congrArg Nat.cast htally.symm
    · have hold := I.listed u
      rwa [← hplace u .waitingForRead (by simp) (by simp), ← hplace u .waitingForWrite (by simp) (by simp)] at hold
    · exact I.asleep u ((hplace u _ (by simp) (by simp)).mp hu)
    · exact I.current u hu ((hplace u _ (by simp) (by simp)).mp hw)
  | upRead t => exact up_read_inv I he.2
  | upWrite t => exact up_write_inv I he.2
  | interrupt next =>
    refine ⟨I.writer, I.readers, I.listed, I.nodup, I.first, I.asleep, fun u hu => I.awake ?_⟩
    have hu' : next = some u := hu
    have hrun := he.2
    rw [hu'] at hrun
    exact hrun

/-- The thread holds the semaphore. A reader holds it from the time it is let in. -/
def Holds (s : State τ) (t : τ) : Prop := s.place t = .writing ∨ Reads (s.place t)

/-- A writer is alone, and the count says who holds the semaphore. -/
theorem rwsem_exclusive (cpu : Cpu τ) (events : List (Event τ))
    (hrun : Allowed step Enabled (initRwsem cpu) events) :
    (∀ t, (final step (initRwsem cpu) events).place t = .writing →
      (∀ u, Holds (final step (initRwsem cpu) events) u → u = t) ∧ (final step (initRwsem cpu) events).count = -1) ∧
    ((∀ t, (final step (initRwsem cpu) events).place t ≠ .writing) →
      (final step (initRwsem cpu) events).count = tally Reads (final step (initRwsem cpu) events).place) := by
  have I := final_inv step_inv (init_rwsem_inv cpu) hrun
  refine ⟨fun t ht => ?_, I.readers⟩
  obtain ⟨hc, hr, hone⟩ := I.writer t ht
  refine ⟨fun u hu => ?_, hc⟩
  rcases hu with hu | hu
  · exact hone u hu
  · exact absurd hu (tally_eq_zero.mp hr u)

def readersBehindWriter : List (Event (Fin 3)) :=
  [.downRead 0 none, .interrupt (some 1), .downWrite 1 (some 0), .upRead 0, .interrupt (some 1), .again 1 none,
    .interrupt (some 0), .downRead 0 (some 2), .downRead 2 (some 1), .upWrite 1, .interrupt (some 0), .resume 0]

def contendedRun : List (Event (Fin 3)) :=
  [.downRead 0 none, .interrupt (some 1), .downWrite 1 (some 2), .downRead 2 (some 0), .upRead 0, .interrupt (some 1),
    .again 1 none, .upWrite 1, .interrupt (some 2), .resume 2]

theorem rwsem_exclusive_three :
    Allowed step Enabled (initRwsem ⟨some (0 : Fin 3), fun _ => true⟩) readersBehindWriter ∧
    (final step (initRwsem ⟨some 0, fun _ => true⟩) readersBehindWriter).count =
      tally Reads (final step (initRwsem ⟨some 0, fun _ => true⟩) readersBehindWriter).place :=
  ⟨by decide, (rwsem_exclusive ⟨some 0, fun _ => true⟩ readersBehindWriter (by decide)).2 (by decide)⟩

end Kolibri.Rwsem
