import Kolibri.Time.Timers

/-! # A pass of `check_timers`

While the functions run, `live` falls into the timers in front of the loop and those that it still comes to.
-/

namespace Kolibri.Timers

open Function LinkedLists Run List

/-! ## What a pass is to do -/

def nextOf (mem : BitVec 32 → Timer) (a : BitVec 32) : BitVec 32 := (mem a).next

def prevOf (mem : BitVec 32 → Timer) (a : BitVec 32) : BitVec 32 := (mem a).prev

def State.serial (s : State) (h : BitVec 32) : Nat := (s.mem h).body.serial

/-- The live timers stand in the ring, in this order. -/
structure WellFormed (s : State) : Prop where
  path : Path (nextOf s.mem) (prevOf s.mem) s.timerList s.live s.timerList
  nodup : (s.timerList :: s.live).Nodup

/-- A function has cancelled the timer before its turn. -/
def CancelledEarly (log : List Event) (n : Nat) : Prop := ⟨.cancelled, n⟩ ∈ log.takeWhile (· ≠ ⟨.turn, n⟩)

def advanced (log : List Event) (b : Body) : Body :=
  if ⟨.called, b.serial⟩ ∈ log then { b with time := b.time + b.interval } else b

/-- A pass that started in `s₀` is right up to `s`. -/
structure Sound (s₀ s : State) : Prop where
  called_le : ∀ h ∈ s₀.live, s.log.count ⟨.called, s₀.serial h⟩ ≤ 1
  called_due : ∀ h ∈ s₀.live, ⟨.called, s₀.serial h⟩ ∈ s.log →
    Due s₀.timerTicks (s₀.mem h).body ∧ ¬ CancelledEarly s.log (s₀.serial h)
  all_called : s.done = true → ∀ h ∈ s₀.live, Due s₀.timerTicks (s₀.mem h).body →
    ¬ CancelledEarly s.log (s₀.serial h) → ⟨.called, s₀.serial h⟩ ∈ s.log
  unlinked_le : ∀ n, s.log.count ⟨.unlinked, n⟩ ≤ 1
  freed_le : ∀ n, s.log.count ⟨.freed, n⟩ ≤ 1
  ring : WellFormed s
  times : ∀ h ∈ s₀.live, ∀ h' ∈ s.live, s.serial h' = s₀.serial h → (s.mem h').body = advanced s.log (s₀.mem h).body
  ends : ∃ k, (final step s (List.replicate k .turn)).done = true

structure Start (s : State) : Prop where
  ring : WellFormed s
  serial_inj : ∀ h ∈ s.live, ∀ h' ∈ s.live, s.serial h = s.serial h' → h = h'
  serial_lt : ∀ h ∈ s.live, s.serial h < s.serials
  timerNext : s.timerNext = nextOf s.mem s.timerList
  running : s.running = none
  done : s.done = false
  log : s.log = []

/-! ## Memory -/

section Memory

variable (mem : BitVec 32 → Timer) (a x : BitVec 32)

@[simp] theorem nextOf_setNext : nextOf (setNext mem a x) = update (nextOf mem) a x := comp_update Timer.next mem a _

@[simp] theorem prevOf_setNext : prevOf (setNext mem a x) = prevOf mem :=
  (comp_update Timer.prev mem a _).trans (update_eq_self a _)

@[simp] theorem nextOf_setPrev : nextOf (setPrev mem a x) = nextOf mem :=
  (comp_update Timer.next mem a _).trans (update_eq_self a _)

@[simp] theorem prevOf_setPrev : prevOf (setPrev mem a x) = update (prevOf mem) a x := comp_update Timer.prev mem a _

@[simp] theorem body_setNext (b : BitVec 32) : (setNext mem a x b).body = (mem b).body :=
  congrFun ((comp_update Timer.body mem a { mem a with next := x }).trans (update_eq_self a _)) b

@[simp] theorem body_setPrev (b : BitVec 32) : (setPrev mem a x b).body = (mem b).body :=
  congrFun ((comp_update Timer.body mem a { mem a with prev := x }).trans (update_eq_self a _)) b

@[simp] theorem nextOf_update_body (body : Body) : nextOf (update mem a { mem a with body }) = nextOf mem :=
  (comp_update Timer.next mem a _).trans (update_eq_self a _)

@[simp] theorem prevOf_update_body (body : Body) : prevOf (update mem a { mem a with body }) = prevOf mem :=
  (comp_update Timer.prev mem a _).trans (update_eq_self a _)

end Memory

/-! ## The ring -/

theorem erase_of_split {l1 l2 : List (BitVec 32)} {x : BitVec 32} (h : x ∉ l1) : (l1 ++ x :: l2).erase x = l1 ++ l2 := by
  rw [erase_append_right _ h, erase_cons_head]

theorem WellFormed.nodup_last {s : State} (h : WellFormed s) : (s.live ++ [s.timerList]).Nodup :=
  (perm_append_singleton s.timerList s.live).nodup_iff.mpr h.nodup

theorem WellFormed.cancel {s : State} (h : WellFormed s) {x : BitVec 32} (hx : x ∈ s.live) :
    WellFormed (cancelTimerHs s x) := by
  obtain ⟨l1, l2, hl⟩ := append_of_mem hx
  obtain ⟨hhead, hnodup⟩ := nodup_cons.mp h.nodup
  have hpath := h.path
  have hlast := h.nodup_last
  rw [hl] at hpath hhead hnodup hlast
  have hx1 : x ∉ l1 := fun hmem => (nodup_append.mp hnodup).2.2 x hmem x mem_cons_self rfl
  have hremove := path_remove hpath hlast hhead
  refine ⟨?_, ?_⟩
  · change Path (nextOf (setNext (setPrev s.mem _ _) _ _)) (prevOf (setNext (setPrev s.mem _ _) _ _)) s.timerList
      (s.live.erase x) s.timerList
    rw [hl, erase_of_split hx1, nextOf_setNext, nextOf_setPrev, prevOf_setNext, prevOf_setPrev]
    exact hremove
  rw [nodup_cons]
  refine ⟨fun hmem => ?_, ?_⟩
  · exact (nodup_cons.mp h.nodup).1 (mem_of_mem_erase hmem)
  · exact (nodup_cons.mp h.nodup).2.erase x

variable {ebx : BitVec 32} {log : List Event} {n : Nat}

theorem WellFormed.add {s : State} (h : WellFormed s) (hfresh : ebx ∉ s.timerList :: s.live)
    (deltaStart interval timerFunc userData : BitVec 32) :
    WellFormed (timerHs s deltaStart interval timerFunc userData ebx) := by
  unfold timerHs
  by_cases hzero : ebx = 0
  · rwa [if_pos hzero]
  rw [if_neg hzero]
  have hnotin := hfresh
  rw [mem_cons, not_or] at hfresh
  have hpush := path_push h.path h.nodup_last (nodup_cons.mp h.nodup).1 hfresh.2 hfresh.1 hfresh.1
  have hring : nextOf s.mem (prevOf s.mem s.timerList) = s.timerList := path_next_prev h.path (.inr rfl)
  refine ⟨?_, ?_⟩
  · dsimp only
    rw [addNext, addPrev, hring] at hpush
    simp only [nextOf_setNext, nextOf_setPrev, prevOf_setNext, prevOf_setPrev, nextOf_update_body, prevOf_update_body]
    rw [update_of_ne (Ne.symm hfresh.1), update_comm hfresh.1]
    exact hpush
  · change (s.timerList :: (s.live ++ [ebx])).Nodup
    rw [← cons_append]
    exact (perm_append_singleton ebx _).nodup_iff.mpr (nodup_cons.mpr ⟨hnotin, h.nodup⟩)

/-! ## What is known of a timer -/

theorem cancelledEarly_append (h : ⟨.turn, n⟩ ∈ log) (evs : List Event) :
    CancelledEarly (log ++ evs) n ↔ CancelledEarly log n := by
  unfold CancelledEarly
  rw [takeWhile_append, if_neg]
  intro hlen
  have hall := takeWhile_eq_self_iff.mp ((List.takeWhile_prefix _).eq_of_length hlen)
  simpa using hall _ h

theorem takeWhile_of_no_turn (h : ⟨.turn, n⟩ ∉ log) : log.takeWhile (· ≠ ⟨.turn, n⟩) = log :=
  takeWhile_eq_self_iff.mpr fun ev hev => by
    rw [decide_eq_true_eq]
    rintro rfl
    exact h hev

theorem cancelledEarly_iff (h : ⟨.turn, n⟩ ∉ log) : CancelledEarly log n ↔ ⟨.cancelled, n⟩ ∈ log := by
  rw [CancelledEarly, takeWhile_of_no_turn h]

/-- The loop has still to come to the timer, it was cancelled before that, or it had its turn. -/
inductive Status (ticks : BitVec 32) (b : Body) (s : State) (rest : List (BitVec 32)) : Prop
  | waiting (h : BitVec 32) (mem : h ∈ rest) (body : (s.mem h).body = b) (log : ∀ ev ∈ s.log, ev.serial ≠ b.serial)
  | early (live : ∀ h ∈ s.live, s.serial h ≠ b.serial) (cancelled : ⟨.cancelled, b.serial⟩ ∈ s.log)
      (turn : ⟨.turn, b.serial⟩ ∉ s.log) (called : ⟨.called, b.serial⟩ ∉ s.log)
  | turned (rest : ∀ h ∈ rest, s.serial h ≠ b.serial) (turn : ⟨.turn, b.serial⟩ ∈ s.log)
      (early : ¬ CancelledEarly s.log b.serial)
      (called : s.log.count ⟨.called, b.serial⟩ = if Due ticks b then 1 else 0)
      (body : ∀ h ∈ s.live, s.serial h = b.serial → (s.mem h).body = advanced s.log b)

section Status

variable {ticks : BitVec 32} {b : Body} {s s' : State} {rest rest' : List (BitVec 32)} {evs : List Event}

theorem foreign_notMem (hevs : ∀ ev ∈ evs, ev.serial ≠ b.serial) (kind : Kind) : ⟨kind, b.serial⟩ ∉ evs :=
  fun hmem => hevs _ hmem rfl

theorem advanced_append (log : List Event) (h : ⟨.called, b.serial⟩ ∉ evs) :
    advanced (log ++ evs) b = advanced log b := by
  simp [advanced, h]

theorem Status.frame (h : Status ticks b s rest) (hlog : s'.log = s.log ++ evs)
    (hevs : ∀ ev ∈ evs, ev.serial ≠ b.serial)
    (hstays : ∀ h ∈ rest, s.serial h = b.serial → h ∈ rest' ∧ (s'.mem h).body = (s.mem h).body)
    (hrest : ∀ h ∈ rest', s'.serial h = b.serial → h ∈ rest ∧ (s'.mem h).body = (s.mem h).body)
    (hlive : ∀ h ∈ s'.live, s'.serial h = b.serial → h ∈ s.live ∧ (s'.mem h).body = (s.mem h).body) :
    Status ticks b s' rest' := by
  cases h with
  | waiting h hmem hbody hfree =>
    obtain ⟨hmem', hbody'⟩ := hstays h hmem (by rw [State.serial, hbody])
    refine .waiting h hmem' (hbody'.trans hbody) fun ev hev => ?_
    rw [hlog, mem_append] at hev
    exact hev.elim (hfree ev) (hevs ev)
  | early hgone hcancelled hturn hcalled =>
    refine .early (fun h hmem heq => ?_) ?_ ?_ ?_
    · obtain ⟨hmem', hbody'⟩ := hlive h hmem heq
      exact hgone h hmem' (by rw [State.serial, ← hbody']; exact heq)
    · rw [hlog]
      exact mem_append_left _ hcancelled
    · rw [hlog, mem_append]
      exact fun h => h.elim hturn (foreign_notMem hevs _)
    · rw [hlog, mem_append]
      exact fun h => h.elim hcalled (foreign_notMem hevs _)
  | turned hother hturn hearly hcalled hbody =>
    refine .turned (fun h hmem heq => ?_) ?_ ?_ ?_ (fun h hmem heq => ?_)
    · obtain ⟨hmem', hbody'⟩ := hrest h hmem heq
      exact hother h hmem' (by rw [State.serial, ← hbody']; exact heq)
    · rw [hlog]
      exact mem_append_left _ hturn
    · rwa [hlog, cancelledEarly_append hturn]
    · rw [hlog, count_append, hcalled, count_eq_zero.mpr (foreign_notMem hevs _), Nat.add_zero]
    · obtain ⟨hmem', hbody'⟩ := hlive h hmem heq
      rw [hlog, advanced_append _ (foreign_notMem hevs _), hbody']
      exact hbody h hmem' (by rw [State.serial, ← hbody']; exact heq)

end Status

/-! ## The invariant -/

/-- What a record meets but once. -/
def Kind.removes : Kind → Bool
  | unlinked | freed => true
  | _ => false

/-- The live timers with a serial, and its removals in the log. -/
def State.tally (s : State) (kind : Kind) (n : Nat) : Nat := (s.live.map s.serial).count n + s.log.count ⟨kind, n⟩

/-- `before` are the live timers in front of the loop, `rest` those it comes to. -/
structure Base (s₀ : State) (before rest : List (BitVec 32)) (s : State) : Prop where
  live : s.live = before ++ rest
  ring : WellFormed s
  timerNext : s.timerNext = rest.headD s.timerList
  tally : ∀ kind n, kind.removes = true → s.tally kind n ≤ if n < s.serials then 1 else 0
  serials : s₀.serials ≤ s.serials
  timerTicks : s.timerTicks = s₀.timerTicks

structure Inv (s₀ : State) (before rest : List (BitVec 32)) (s : State) : Prop extends Base s₀ before rest s where
  oneShot : ∀ r, s.running = some r → r.oneShot = true → r.handle ∉ s.live → ⟨.freed, s.serial r.handle⟩ ∈ s.log
  done : s.done = true → rest = [] ∧ s.running = none
  status : ∀ h ∈ s₀.live, Status s₀.timerTicks (s₀.mem h).body s rest

theorem Start.inv {s : State} (h : Start s) : Inv s [] s.live s where
  live := rfl
  ring := h.ring
  timerNext := by
    have hpath := h.ring.path
    rw [h.timerNext]
    cases hl : s.live with
    | nil =>
      rw [hl] at hpath
      exact hpath.1
    | cons x l =>
      rw [hl] at hpath
      exact hpath.1
  tally kind n _ := by
    rw [State.tally, h.log, count_nil, Nat.add_zero]
    split_ifs with hn
    · exact nodup_iff_count_le_one.mp ((nodup_cons.mp h.ring.nodup).2.map_on h.serial_inj) n
    · rw [Nat.le_zero, count_eq_zero, mem_map]
      rintro ⟨x, hx, rfl⟩
      exact hn (h.serial_lt x hx)
  serials := le_rfl
  timerTicks := rfl
  oneShot r hr := by
    rw [h.running] at hr
    cases hr
  done hdone := by
    rw [h.done] at hdone
    cases hdone
  status x hx := .waiting x hx rfl (by simp [h.log])

namespace Base

variable {s₀ s : State} {before rest : List (BitVec 32)}

theorem mem_live_of_rest (h : Base s₀ before rest s) {x : BitVec 32} (hx : x ∈ rest) : x ∈ s.live := by
  rw [h.live]
  exact mem_append_right _ hx

theorem nodup_live (h : Base s₀ before rest s) : (before ++ rest).Nodup := by
  rw [← h.live]
  exact (nodup_cons.mp h.ring.nodup).2

theorem next_head {x : BitVec 32} (h : Base s₀ before (x :: rest) s) : nextOf s.mem x = rest.headD s.timerList := by
  have hpath := h.ring.path
  rw [h.live] at hpath
  obtain ⟨-, hrest⟩ := path_append.mp hpath
  cases rest with
  | nil => exact hrest.1
  | cons y l => exact hrest.1

theorem removed_le (h : Base s₀ before rest s) (kind : Kind) (n : Nat) (hkind : kind.removes = true) :
    s.log.count ⟨kind, n⟩ ≤ 1 := by
  have htally := h.tally kind n hkind
  unfold State.tally at htally
  split_ifs at htally <;> omega

theorem serial_inj (h : Base s₀ before rest s) (x : BitVec 32) (hx : x ∈ s.live) (y : BitVec 32) (hy : y ∈ s.live)
    (heq : s.serial x = s.serial y) : x = y := by
  refine inj_on_of_nodup_map (nodup_iff_count_le_one.mpr fun n => ?_) hx hy heq
  have htally := h.tally .freed n rfl
  unfold State.tally at htally
  split_ifs at htally <;> omega

/-- What is added to the log is no removal. -/
theorem note (h : Base s₀ before rest s) (running : Option Running) (ev : Event) (hev : ev.kind.removes = false) :
    Base s₀ before rest { s with running, log := s.log ++ [ev] } := by
  refine ⟨h.live, ⟨h.ring.path, h.ring.nodup⟩, h.timerNext, fun kind n hkind => ?_, h.serials, h.timerTicks⟩
  have hnone : [ev].count ⟨kind, n⟩ = 0 := by
    rw [count_eq_zero, mem_singleton]
    rintro rfl
    rw [hkind] at hev
    cases hev
  change (s.live.map s.serial).count n + (s.log ++ [ev]).count _ ≤ _
  rw [count_append, hnone]
  exact h.tally kind n hkind

/-! ## Cancelling a timer -/

theorem cancel_body (s : State) (x a : BitVec 32) : ((cancelTimerHs s x).mem a).body = (s.mem a).body := by
  simp [cancelTimerHs]

theorem cancel_serial (s : State) (x a : BitVec 32) : (cancelTimerHs s x).serial a = s.serial a := by
  rw [State.serial, cancel_body]
  rfl

theorem cancel_timerNext (h : Base s₀ before rest s) {x : BitVec 32} (hx : x ∈ s.live) :
    (cancelTimerHs s x).timerNext = (rest.erase x).headD s.timerList := by
  have hhead := (nodup_cons.mp h.ring.nodup).1
  change (if x = s.timerNext then nextOf s.mem x else s.timerNext) = _
  cases rest with
  | nil =>
    have hne : x ≠ s.timerNext := by
      rw [h.timerNext]
      rintro rfl
      exact hhead hx
    rw [if_neg hne, h.timerNext]
    rfl
  | cons y l =>
    have hfirst : s.timerNext = y := h.timerNext
    by_cases hxy : x = y
    · rw [hfirst, if_pos hxy, hxy, h.next_head, erase_cons_head]
    · rw [hfirst, if_neg hxy, erase_cons_tail (by simpa using Ne.symm hxy)]
      rfl

theorem cancel (h : Base s₀ before rest s) {x : BitVec 32} (hx : x ∈ s.live) :
    Base s₀ (before.erase x) (rest.erase x) (cancelTimerHs s x) := by
  have hlive : s.live.erase x = before.erase x ++ rest.erase x := by
    rw [h.live]
    by_cases hb : x ∈ before
    · have hr : x ∉ rest := fun hr => (nodup_append.mp h.nodup_live).2.2 x hb x hr rfl
      rw [erase_append_left _ hb, erase_of_not_mem hr]
    · rw [erase_append_right _ hb, erase_of_not_mem hb]
  refine ⟨hlive, h.ring.cancel hx, h.cancel_timerNext hx, fun kind n hkind => ?_, h.serials, h.timerTicks⟩
  -- The serial goes from the live timers to the log.
  have hperm : (s.live.map s.serial).count n = ((s.serial x) :: (s.live.erase x).map s.serial).count n :=
    ((perm_cons_erase hx).map s.serial).count_eq n
  have hcount : List.count (⟨kind, n⟩ : Event) [⟨.unlinked, s.serial x⟩, ⟨.freed, s.serial x⟩] =
      if s.serial x = n then 1 else 0 := by
    by_cases hn : s.serial x = n
    · cases kind <;> cases hkind <;> simp [hn]
    · rw [if_neg hn, count_eq_zero]
      simp [Ne.symm hn]
  have htally := h.tally kind n hkind
  rw [State.tally, hperm, count_cons] at htally
  have hserial : (cancelTimerHs s x).serial = s.serial := funext (cancel_serial s x)
  have hlog : (cancelTimerHs s x).log = s.log ++ [⟨.unlinked, s.serial x⟩, ⟨.freed, s.serial x⟩] := rfl
  rw [State.tally, hserial, hlog, count_append, hcount]
  simp only [beq_iff_eq] at htally
  change List.count n ((s.live.erase x).map s.serial) + _ ≤ if n < s.serials then 1 else 0
  omega

/-! ## Adding a timer -/

variable (deltaStart interval timerFunc userData : BitVec 32) {ebx : BitVec 32}

theorem add_body_of_ne (s : State) {a : BitVec 32} (ha : a ≠ ebx) :
    ((timerHs s deltaStart interval timerFunc userData ebx).mem a).body = (s.mem a).body := by
  unfold timerHs
  by_cases hzero : ebx = 0
  · rw [if_pos hzero]
  · rw [if_neg hzero]
    simp only [body_setNext, body_setPrev]
    rw [update_of_ne ha]

theorem add_serial_self (s : State) (hzero : ebx ≠ 0) :
    (timerHs s deltaStart interval timerFunc userData ebx).serial ebx = s.serials := by
  unfold timerHs
  rw [if_neg hzero, State.serial]
  simp only [body_setNext, body_setPrev]
  rw [update_self]

/-- The loop does not come to a new timer if it has come to the end. -/
theorem add (h : Base s₀ before rest s) (hzero : ebx ≠ 0) (hfresh : ebx ∉ s.timerList :: s.live) :
    Base s₀ (if rest = [] then before ++ [ebx] else before) (if rest = [] then [] else rest ++ [ebx])
      (timerHs s deltaStart interval timerFunc userData ebx) := by
  have hring := h.ring.add hfresh deltaStart interval timerFunc userData
  have hself := add_serial_self deltaStart interval timerFunc userData s hzero
  have hother {a : BitVec 32} (ha : a ∈ s.live) :
      (timerHs s deltaStart interval timerFunc userData ebx).serial a = s.serial a := by
    rw [State.serial, add_body_of_ne]
    · rfl
    · rintro rfl
      exact hfresh (mem_cons_of_mem _ ha)
  generalize hs' : timerHs s deltaStart interval timerFunc userData ebx = s' at hring hself hother ⊢
  rw [timerHs, if_neg hzero] at hs'
  have hlive : s'.live = s.live ++ [ebx] := by rw [← hs']
  have hserials : s'.serials = s.serials + 1 := by rw [← hs']
  have hlog : s'.log = s.log := by rw [← hs']
  refine ⟨?_, hring, ?_, fun kind n hkind => ?_, ?_, ?_⟩
  · rw [hlive, h.live]
    split_ifs with hrest
    · rw [hrest, append_nil, append_nil]
    · rw [append_assoc]
  · have hnext : s'.timerNext = s.timerNext := by rw [← hs']
    have hlist : s'.timerList = s.timerList := by rw [← hs']
    rw [hnext, hlist, h.timerNext]
    split_ifs with hrest
    · rw [hrest]
    · cases rest with
      | nil => exact absurd rfl hrest
      | cons y l => rfl
  · have htally := h.tally kind n hkind
    rw [State.tally] at htally ⊢
    have hmap : s.live.map s'.serial = s.live.map s.serial := map_congr_left fun a ha => hother ha
    rw [hlive, hlog, hserials, map_append, hmap, count_append, map_singleton, hself, count_singleton]
    split_ifs at htally ⊢ with hn hnew hnext hnext
    all_goals simp only [beq_iff_eq] at *
    all_goals omega
  · rw [hserials]
    exact Nat.le_succ_of_le h.serials
  · rw [← hs']
    exact h.timerTicks

/-! ## A round of the loop -/

theorem pass {x : BitVec 32} (h : Base s₀ before (x :: rest) s) :
    Base s₀ (before ++ [x]) rest
      { s with running := none, timerNext := (s.mem x).next, log := s.log ++ [⟨.turn, s.serial x⟩] } := by
  have hnote := h.note none ⟨.turn, s.serial x⟩ rfl
  refine ⟨?_, ⟨h.ring.path, h.ring.nodup⟩, h.next_head, hnote.tally, h.serials, h.timerTicks⟩
  rw [h.live, append_assoc]
  rfl

theorem advance (h : Base s₀ before rest s) (x : BitVec 32) (running : Option Running) (time : BitVec 32) :
    Base s₀ before rest
      { s with running, mem := update s.mem x { s.mem x with body := { (s.mem x).body with time } } } := by
  have hserial : State.serial
      { s with running, mem := update s.mem x { s.mem x with body := { (s.mem x).body with time } } } = s.serial := by
    funext a
    by_cases ha : a = x <;> simp [State.serial, ha]
  refine ⟨h.live, ⟨?_, h.ring.nodup⟩, h.timerNext, fun kind n hkind => ?_, h.serials, h.timerTicks⟩
  · dsimp only
    rw [nextOf_update_body, prevOf_update_body]
    exact h.ring.path
  · rw [State.tally, hserial]
    exact h.tally kind n hkind

theorem activate (h : Base s₀ before rest s) {x : BitVec 32} (hx : x ∈ s.live) (hrest : x ∉ rest) :
    ∃ before', Base s₀ before' rest (Timers.activate s x) := by
  have hadv := h.advance x
    (some
      { handle := x
        oneShot := (s.mem x).body.interval = 0
        timerFunc := (s.mem x).body.timerFunc
        userData := (s.mem x).body.userData })
    ((s.mem x).body.time + (s.mem x).body.interval)
  by_cases hone : (s.mem x).body.interval = 0
  · refine ⟨before.erase x, ?_⟩
    rw [Timers.activate, if_neg (not_not.mpr hone), ← erase_of_not_mem hrest]
    exact (hadv.cancel hx).note _ ⟨.called, s.serial x⟩ rfl
  · refine ⟨before, ?_⟩
    rw [Timers.activate, if_pos hone]
    exact hadv.note _ ⟨.called, s.serial x⟩ rfl

end Base

section Activate

variable (s : State) (x : BitVec 32)

def activateEvents : List Event :=
  if (s.mem x).body.interval = 0 then [⟨.unlinked, s.serial x⟩, ⟨.freed, s.serial x⟩, ⟨.called, s.serial x⟩]
  else [⟨.called, s.serial x⟩]

theorem log_activate : (activate s x).log = s.log ++ activateEvents s x := by
  by_cases hone : (s.mem x).body.interval = 0
  · rw [activate, if_neg (not_not.mpr hone), activateEvents, if_pos hone]
    simp [cancelTimerHs, State.serial]
  · rw [activate, if_pos hone, activateEvents, if_neg hone]
    rfl

theorem serial_of_mem_activateEvents {ev : Event} (hev : ev ∈ activateEvents s x) : ev.serial = s.serial x := by
  rw [activateEvents] at hev
  split_ifs at hev
  · simp only [mem_cons, not_mem_nil, or_false] at hev
    rcases hev with rfl | rfl | rfl <;> rfl
  · rw [mem_singleton] at hev
    rw [hev]

theorem count_called_activateEvents : (activateEvents s x).count ⟨.called, s.serial x⟩ = 1 := by
  rw [activateEvents]
  split_ifs <;> simp

theorem body_activate (a : BitVec 32) :
    ((activate s x).mem a).body = (update s.mem x
        { s.mem x with body := { (s.mem x).body with time := (s.mem x).body.time + (s.mem x).body.interval } } a).body := by
  by_cases hone : (s.mem x).body.interval = 0
  · rw [activate, if_neg (not_not.mpr hone)]
    exact Base.cancel_body _ x a
  · rw [activate, if_pos hone]

theorem mem_live_activate (hnodup : s.live.Nodup) {a : BitVec 32} :
    a ∈ (activate s x).live ↔ a ∈ s.live ∧ ((s.mem x).body.interval = 0 → a ≠ x) := by
  by_cases hone : (s.mem x).body.interval = 0
  · rw [activate, if_neg (not_not.mpr hone)]
    change a ∈ s.live.erase x ↔ _
    rw [hnodup.mem_erase_iff]
    simp [hone, and_comm]
  · rw [activate, if_pos hone]
    exact ⟨fun ha => ⟨ha, fun hzero => absurd hzero hone⟩, And.left⟩

theorem serial_activate_self : (activate s x).serial x = s.serial x := by
  rw [State.serial, body_activate, update_self]
  rfl

theorem running_activate :
    (activate s x).running = some
        { handle := x
          oneShot := (s.mem x).body.interval = 0
          timerFunc := (s.mem x).body.timerFunc
          userData := (s.mem x).body.userData } := by
  rw [activate]
  split_ifs <;> rfl

theorem done_activate : (activate s x).done = s.done := by
  rw [activate]
  split_ifs <;> rfl

end Activate

section Steps

variable {s₀ s : State} {before rest : List (BitVec 32)}

/-! ## What the functions do -/

theorem Inv.cancel (h : Inv s₀ before rest s) {x : BitVec 32} (hx : x ∈ s.live) :
    Inv s₀ (before.erase x) (rest.erase x) (act s (.cancel x)) := by
  have hbase := (h.toBase.note s.running ⟨.cancelled, s.serial x⟩ rfl).cancel hx
  have hbody (a : BitVec 32) : ((act s (.cancel x)).mem a).body = (s.mem a).body := Base.cancel_body _ x a
  have hserial (a : BitVec 32) : (act s (.cancel x)).serial a = s.serial a := Base.cancel_serial _ x a
  have hlog : (act s (.cancel x)).log =
      s.log ++ [⟨.cancelled, s.serial x⟩, ⟨.unlinked, s.serial x⟩, ⟨.freed, s.serial x⟩] := append_assoc ..
  have hmem {y : BitVec 32} : y ∈ (act s (.cancel x)).live ↔ y ≠ x ∧ y ∈ s.live :=
    (nodup_cons.mp h.ring.nodup).2.mem_erase_iff
  refine ⟨hbase, ?_, ?_, ?_⟩
  · intro r hr hone hgone
    rw [hserial, hlog]
    by_cases hrx : r.handle = x
    · rw [hrx]
      simp
    · exact mem_append_left _ (h.oneShot r hr hone fun hlive => hgone (hmem.mpr ⟨hrx, hlive⟩))
  · intro hdone
    obtain ⟨hrest, hrunning⟩ := h.done hdone
    exact ⟨by rw [hrest]; rfl, hrunning⟩
  · intro h0 hh0
    have hstatus := h.status h0 hh0
    generalize (s₀.mem h0).body = b at hstatus ⊢
    by_cases hb : b.serial = s.serial x
    · cases hstatus with
      | waiting y hy hbody hfree =>
        obtain rfl : y = x := h.serial_inj y (h.mem_live_of_rest hy) x hx (by rw [State.serial, hbody, hb])
        refine .early (fun z hz heq => ?_) ?_ ?_ ?_
        · rw [hserial, hb] at heq
          exact (hmem.mp hz).1 (h.serial_inj z (hmem.mp hz).2 y hx heq)
        · rw [hlog, hb]
          simp
        · rw [hlog, mem_append]
          rintro (hev | hev)
          · exact hfree _ hev rfl
          · simp at hev
        · rw [hlog, mem_append]
          rintro (hev | hev)
          · exact hfree _ hev rfl
          · simp at hev
      | early hgone => exact absurd hb.symm (hgone x hx)
      | turned hother hturn hearly hcalled =>
        refine .turned (fun z hz heq => ?_) ?_ ?_ ?_ (fun z hz heq => ?_)
        · rw [hserial] at heq
          exact hother z (mem_of_mem_erase hz) heq
        · rw [hlog]
          exact mem_append_left _ hturn
        · rwa [hlog, cancelledEarly_append hturn]
        · rw [hlog, count_append, hcalled]
          simp
        · rw [hserial, hb] at heq
          exact absurd (h.serial_inj z (hmem.mp hz).2 x hx heq) (hmem.mp hz).1
    · refine hstatus.frame hlog ?_ (fun z hz heq => ⟨?_, hbody z⟩) (fun z hz _ => ⟨mem_of_mem_erase hz, hbody z⟩)
        (fun z hz _ => ⟨(hmem.mp hz).2, hbody z⟩)
      · intro ev hev
        simp only [mem_cons, not_mem_nil, or_false] at hev
        rcases hev with rfl | rfl | rfl <;> exact Ne.symm hb
      · refine (mem_erase_of_ne ?_).mpr hz
        rintro rfl
        exact hb heq.symm

theorem Inv.add (hstart : Start s₀) (h : Inv s₀ before rest s) (deltaStart interval timerFunc userData : BitVec 32)
    (hfresh : ebx = 0 ∨ ebx ∉ s.timerList :: s.live) :
    ∃ before' rest', Inv s₀ before' rest' (timerHs s deltaStart interval timerFunc userData ebx) := by
  by_cases hzero : ebx = 0
  · refine ⟨before, rest, ?_⟩
    rwa [timerHs, if_pos hzero]
  replace hfresh := hfresh.resolve_left hzero
  have hbase := h.toBase.add deltaStart interval timerFunc userData hzero hfresh
  have hself := Base.add_serial_self deltaStart interval timerFunc userData s hzero
  have hbody {a : BitVec 32} (ha : a ≠ ebx) := Base.add_body_of_ne deltaStart interval timerFunc userData s ha
  generalize hs' : timerHs s deltaStart interval timerFunc userData ebx = s' at hbase hself hbody ⊢
  rw [timerHs, if_neg hzero] at hs'
  have hlive : s'.live = s.live ++ [ebx] := by rw [← hs']
  have hlog : s'.log = s.log ++ [] := by rw [← hs', append_nil]
  refine ⟨_, _, hbase, ?_, ?_, ?_⟩
  · intro r hr hone hgone
    rw [hlive, mem_append, mem_singleton, not_or] at hgone
    rw [hlog, append_nil, State.serial, hbody hgone.2]
    exact h.oneShot r (by rw [← hr, ← hs']) hone hgone.1
  · intro hdone
    obtain ⟨hrest, hrunning⟩ := h.done (by rw [← hdone, ← hs'])
    exact ⟨if_pos hrest, by rw [← hrunning, ← hs']⟩
  · intro h0 hh0
    have hlt : (s₀.mem h0).body.serial < s.serials := (hstart.serial_lt h0 hh0).trans_le h.serials
    -- The new timer has a serial of its own.
    have hold {z : BitVec 32} (hz : z ∈ s.live ∨ z = ebx) (heq : s'.serial z = (s₀.mem h0).body.serial) :
        z ∈ s.live ∧ (s'.mem z).body = (s.mem z).body := by
      by_cases hze : z = ebx
      · rw [hze, hself] at heq
        exact absurd heq hlt.ne'
      · exact ⟨hz.resolve_right hze, hbody hze⟩
    refine (h.status h0 hh0).frame hlog (by simp) (fun z hz _ => ⟨?_, ?_⟩) (fun z hz heq => ?_) (fun z hz heq => ?_)
    · rw [if_neg (ne_nil_of_mem hz)]
      exact mem_append_left _ hz
    · refine hbody ?_
      rintro rfl
      exact hfresh (mem_cons_of_mem _ (h.mem_live_of_rest hz))
    · split_ifs at hz with hrest
      · cases hz
      rw [mem_append, mem_singleton] at hz
      have hz' := hold (hz.imp_left h.mem_live_of_rest) heq
      refine ⟨hz.resolve_right ?_, hz'.2⟩
      rintro rfl
      exact hfresh (mem_cons_of_mem _ hz'.1)
    · rw [hlive, mem_append, mem_singleton] at hz
      exact hold hz heq

/-! ## The turns -/

theorem not_cancelledEarly_turn (hfree : ∀ ev ∈ log, ev.serial ≠ n) (evs : List Event) :
    ¬ CancelledEarly (log ++ ⟨.turn, n⟩ :: evs) n := by
  have hall := takeWhile_of_no_turn fun hmem => hfree _ hmem rfl
  rw [CancelledEarly, takeWhile_append, hall, if_pos rfl, takeWhile_cons_of_neg (by simp), append_nil]
  exact fun hmem => hfree _ hmem rfl

theorem Inv.status_turn {x : BitVec 32} (h : Inv s₀ before (x :: rest) s) {s' : State} {evs : List Event}
    (hlog : s'.log = s.log ++ ⟨.turn, s.serial x⟩ :: evs) (hevs : ∀ ev ∈ evs, ev.serial = s.serial x)
    (hcount : evs.count ⟨.called, s.serial x⟩ = if Due s₀.timerTicks (s.mem x).body then 1 else 0)
    (hother : ∀ a ≠ x, (s'.mem a).body = (s.mem a).body) (hlive : ∀ a ∈ s'.live, a ∈ s.live)
    (hself : x ∈ s'.live → (s'.mem x).body = advanced evs (s.mem x).body) :
    ∀ h0 ∈ s₀.live, Status s₀.timerTicks (s₀.mem h0).body s' rest := by
  have hx : x ∈ s.live := h.mem_live_of_rest mem_cons_self
  have hxrest : x ∉ rest := (nodup_cons.mp (nodup_append.mp h.nodup_live).2.1).1
  have hserial {a : BitVec 32} (ha : a ∈ s'.live) : s'.serial a = s.serial a := by
    by_cases hax : a = x
    · rw [hax] at ha ⊢
      rw [State.serial, hself ha, advanced]
      split_ifs <;> rfl
    · rw [State.serial, hother a hax]
      rfl
  intro h0 hh0
  have hstatus := h.status h0 hh0
  generalize (s₀.mem h0).body = b at hstatus ⊢
  by_cases hb : b.serial = s.serial x
  · cases hstatus with
    | waiting y hy hbody hfree =>
      obtain rfl : y = x := h.serial_inj y (h.mem_live_of_rest hy) x hx (by rw [State.serial, hbody, hb])
      have hcalled : List.count ⟨.called, b.serial⟩ s.log = 0 := count_eq_zero.mpr fun hmem => hfree _ hmem rfl
      rw [hb] at hfree hcalled
      refine .turned (fun z hz heq => ?_) ?_ ?_ ?_ (fun z hz heq => ?_)
      · have hzy : z ≠ y := fun he => hxrest (he ▸ hz)
        rw [State.serial, hother z hzy, hb] at heq
        exact hzy (h.serial_inj z (h.mem_live_of_rest (mem_cons_of_mem _ hz)) y hx heq)
      · rw [hlog, hb]
        simp
      · rw [hlog, hb]
        exact not_cancelledEarly_turn hfree evs
      · rw [hlog, hb, count_append, hcalled, count_cons_of_ne (by simp), hcount, hbody, Nat.zero_add]
      · rw [hserial hz, hb] at heq
        obtain rfl : z = y := h.serial_inj z (hlive z hz) y hx heq
        rw [hself hz, hbody, hlog, advanced, advanced, hb]
        have hmem : ⟨.called, s.serial z⟩ ∉ s.log := fun hmem => hfree _ hmem rfl
        simp [hmem]
    | early hgone => exact absurd hb.symm (hgone x hx)
    | turned hnone => exact absurd hb.symm (hnone x mem_cons_self)
  · have hne {z : BitVec 32} (heq : s.serial z = b.serial) : z ≠ x := by
      rintro rfl
      exact hb heq.symm
    refine hstatus.frame hlog ?_ (fun z hz heq => ?_) (fun z hz heq => ?_) (fun z hz heq => ?_)
    · intro ev hev
      rcases mem_cons.mp hev with rfl | hev
      · exact Ne.symm hb
      · rw [hevs ev hev]
        exact Ne.symm hb
    · exact ⟨(mem_cons.mp hz).resolve_left (hne heq), hother z (hne heq)⟩
    · have hzx : z ≠ x := fun he => hxrest (he ▸ hz)
      exact ⟨mem_cons_of_mem _ hz, hother z hzx⟩
    · rw [hserial hz] at heq
      exact ⟨hlive z hz, hother z (hne heq)⟩

theorem Inv.turn_nil (h : Inv s₀ before [] s) : Inv s₀ before [] (turn s) := by
  have hend : s.timerNext = s.timerList := h.timerNext
  rw [turn, if_pos hend]
  refine ⟨⟨h.live, ⟨h.ring.path, h.ring.nodup⟩, h.timerNext, h.tally, h.serials, h.timerTicks⟩, ?_, ?_, ?_⟩
  · intro r hr
    cases hr
  · exact fun _ => ⟨rfl, rfl⟩
  · intro h0 hh0
    refine (h.status h0 hh0).frame (append_nil _).symm (by simp) ?_ ?_ ?_
    · exact fun z hz _ => ⟨hz, rfl⟩
    · exact fun z hz _ => ⟨hz, rfl⟩
    · exact fun z hz _ => ⟨hz, rfl⟩

theorem Inv.turn_cons {x : BitVec 32} (h : Inv s₀ before (x :: rest) s) : ∃ before', Inv s₀ before' rest (turn s) := by
  have hx : x ∈ s.live := h.mem_live_of_rest mem_cons_self
  have hxrest : x ∉ rest := (nodup_cons.mp (nodup_append.mp h.nodup_live).2.1).1
  have hnext : s.timerNext = x := h.timerNext
  have hlist : x ≠ s.timerList := by
    rintro rfl
    exact (nodup_cons.mp h.ring.nodup).1 hx
  have hgoing : s.done = false := by
    by_contra hdone
    cases (h.done (by simpa using hdone)).1
  have hpass := h.toBase.pass
  rw [turn, if_neg (by rw [hnext]; exact hlist), hnext]
  by_cases hdue : Due s.timerTicks (s.mem x).body
  · rw [if_pos hdue]
    obtain ⟨before', hbase⟩ := hpass.activate hx hxrest
    generalize hs1 : State.mk s.timerList s.timerTicks (s.mem x).next s.mem none s.done s.serials s.live
      (s.log ++ [⟨.turn, s.serial x⟩]) = s1 at hbase
    have hmem : s1.mem = s.mem := by rw [← hs1]
    have hlive : s1.live = s.live := by rw [← hs1]
    have hserial : s1.serial x = s.serial x := by rw [State.serial, hmem]; rfl
    have hlog : (activate s1 x).log = s.log ++ ⟨.turn, s.serial x⟩ :: activateEvents s1 x := by
      rw [log_activate, ← hs1, append_assoc]
      rfl
    have hnodup : s1.live.Nodup := by
      rw [hlive]
      exact (nodup_cons.mp h.ring.nodup).2
    refine ⟨before', ?_⟩
    change Inv s₀ before' rest (activate (State.mk s.timerList s.timerTicks (s.mem x).next s.mem none s.done s.serials
      s.live (s.log ++ [⟨.turn, s.serial x⟩])) x)
    rw [hs1]
    refine ⟨hbase, ?_, ?_, h.status_turn hlog ?_ ?_ ?_ ?_ ?_⟩
    · intro r hr hone _
      rw [running_activate, Option.some.injEq] at hr
      rw [← hr, decide_eq_true_eq] at hone
      rw [← hr, serial_activate_self, log_activate, activateEvents, if_pos hone]
      simp
    · intro hdone
      rw [done_activate, ← hs1, hgoing] at hdone
      cases hdone
    · intro ev hev
      rw [serial_of_mem_activateEvents s1 x hev, hserial]
    · rw [h.timerTicks] at hdue
      rw [if_pos hdue, ← hserial, count_called_activateEvents]
    · intro a ha
      rw [body_activate, update_of_ne ha, hmem]
    · intro a ha
      rw [← hlive]
      exact ((mem_live_activate s1 x hnodup).mp ha).1
    · intro hmem'
      have hcalled : (⟨.called, (s.mem x).body.serial⟩ : Event) ∈ activateEvents s1 x := by
        rw [← count_pos_iff]
        change 0 < List.count (⟨.called, s.serial x⟩ : Event) _
        rw [← hserial, count_called_activateEvents]
        exact Nat.one_pos
      rw [body_activate, update_self, advanced, if_pos hcalled, hmem]
  · rw [if_neg hdue]
    refine ⟨_, hpass, ?_, ?_, ?_⟩
    · intro r hr
      cases hr
    · intro hdone
      rw [hgoing] at hdone
      cases hdone
    · refine @Inv.status_turn _ _ _ _ _ h _ [] rfl (by simp) ?_ (fun a _ => rfl) (fun a ha => ha) (fun _ => ?_)
      · rw [h.timerTicks] at hdue
        rw [if_neg hdue, count_nil]
      · rw [advanced, if_neg (by simp)]

/-! ## Steps and runs -/

theorem done_of_turns (h : Inv s₀ before rest s) : ∃ k, (final step s (List.replicate k .turn)).done = true := by
  induction rest generalizing before s with
  | nil =>
    refine ⟨1, ?_⟩
    have hend : s.timerNext = s.timerList := h.timerNext
    change (if s.done then s else turn s).done = true
    split_ifs with hdone
    · exact hdone
    · rw [turn, if_pos hend]
  | cons x rest ih =>
    obtain ⟨before', hnext⟩ := h.turn_cons
    obtain ⟨k, hk⟩ := ih hnext
    have hgoing : ¬ s.done = true := fun hdone => by cases (h.done hdone).1
    refine ⟨k + 1, ?_⟩
    rw [replicate_succ, final_cons]
    change (final step (if s.done then s else turn s) _).done = true
    rwa [if_neg hgoing]

theorem Inv.sound (h : Inv s₀ before rest s) : Sound s₀ s where
  called_le x hx := by
    rcases h.status x hx with ⟨y, -, -, hfree⟩ | ⟨-, -, -, hcalled⟩ | ⟨-, -, -, hcalled, -⟩
    · exact (count_eq_zero.mpr (foreign_notMem hfree _)).trans_le (Nat.zero_le _)
    · exact (count_eq_zero.mpr hcalled).trans_le (Nat.zero_le _)
    · rw [State.serial, hcalled]
      split_ifs <;> simp
  called_due x hx hmem := by
    rcases h.status x hx with ⟨y, -, -, hfree⟩ | ⟨-, -, -, hcalled⟩ | ⟨-, -, hearly, hcalled, -⟩
    · exact absurd hmem (foreign_notMem hfree _)
    · exact absurd hmem hcalled
    · refine ⟨?_, hearly⟩
      by_contra hdue
      rw [if_neg hdue, count_eq_zero] at hcalled
      exact hcalled hmem
  all_called hdone x hx hdue hearly := by
    rcases h.status x hx with ⟨y, hy, -, -⟩ | ⟨-, hcancelled, hturn, -⟩ | ⟨-, -, -, hcalled, -⟩
    · rw [(h.done hdone).1] at hy
      cases hy
    · exact absurd ((cancelledEarly_iff hturn).mpr hcancelled) hearly
    · rw [if_pos hdue] at hcalled
      exact count_pos_iff.mp (hcalled ▸ Nat.one_pos)
  unlinked_le n := h.removed_le .unlinked n rfl
  freed_le n := h.removed_le .freed n rfl
  ring := h.ring
  times x hx y hy heq := by
    rcases h.status x hx with ⟨z, hz, hbody, hfree⟩ | ⟨hgone, -⟩ | ⟨-, -, -, -, hbody⟩
    · obtain rfl : z = y := h.serial_inj z (h.mem_live_of_rest hz) y hy (by rw [heq, State.serial, hbody]; rfl)
      rw [hbody, advanced, if_neg (foreign_notMem hfree _)]
    · exact absurd heq (hgone y hy)
    · exact hbody y hy heq
  ends := done_of_turns h

variable {i : Input}

theorem inv_step (hstart : Start s₀) (h : Inv s₀ before rest s) (hok : Enabled s i) (hgood : Good s i) :
    ∃ before' rest', Inv s₀ before' rest' (step s i).1 := by
  cases i with
  | turn =>
    change ∃ before' rest', Inv s₀ before' rest' (if s.done then s else turn s)
    split_ifs with hdone
    · exact ⟨before, rest, h⟩
    cases rest with
    | nil => exact ⟨before, [], h.turn_nil⟩
    | cons x rest =>
      obtain ⟨before', hnext⟩ := h.turn_cons
      exact ⟨before', rest, hnext⟩
  | act a =>
    cases a with
    | add deltaStart interval timerFunc userData malloc =>
      exact h.add hstart deltaStart interval timerFunc userData hok.2
    | cancel handle =>
      obtain ⟨r, hr, hlive | ⟨hone, hself⟩⟩ := hok
      · exact ⟨_, _, h.cancel hlive⟩
      · exact ⟨_, _, h.cancel (hgood r hr hone hself)⟩

theorem not_sound_of_not_good (h : Inv s₀ before rest s) (hbad : ¬ Good s i) : ¬ Sound s₀ (step s i).1 := by
  intro hsound
  match i, hbad with
  | .turn, hbad => exact hbad trivial
  | .act (.add ..), hbad => exact hbad trivial
  | .act (.cancel handle), hbad =>
    simp only [Good, not_forall] at hbad
    obtain ⟨r, hr, hone, rfl, hgone⟩ := hbad
    have hfirst : 0 < s.log.count ⟨.freed, s.serial r.handle⟩ := count_pos_iff.mpr (h.oneShot r hr hone hgone)
    have hle := hsound.freed_le (s.serial r.handle)
    have hlog : (step s (.act (.cancel r.handle))).1.log =
        s.log ++ [⟨.cancelled, s.serial r.handle⟩, ⟨.unlinked, s.serial r.handle⟩, ⟨.freed, s.serial r.handle⟩] :=
      append_assoc ..
    rw [hlog, count_append] at hle
    have hsecond : List.count (⟨.freed, s.serial r.handle⟩ : Event)
        [⟨.cancelled, s.serial r.handle⟩, ⟨.unlinked, s.serial r.handle⟩, ⟨.freed, s.serial r.handle⟩] = 1 := by simp
    omega

end Steps

/-- A pass is right exactly if no function of a one-shot timer cancels this timer. -/
theorem check_timers_sound_iff (s : State) (hstart : Start s) (inputs : List Input)
    (hok : Allowed step Enabled s inputs) :
    (∀ pre, pre <+: inputs → Sound s (final step s pre)) ↔ Allowed step Good s inputs := by
  have hinv : ∃ before rest, Inv s before rest s := ⟨[], s.live, hstart.inv⟩
  refine @forall_prefix_iff _ _ _ step Enabled (fun t => ∃ before rest, Inv s before rest t) _ _ ?_ ?_ ?_ _ _ hinv hok
  · rintro t i ⟨before, rest, h⟩ hen hgood
    exact inv_step hstart h hen hgood
  · rintro t ⟨before, rest, h⟩
    exact h.sound
  · rintro t i ⟨before, rest, h⟩ - hbad
    exact not_sound_of_not_good h hbad

def sample : State where
  timerList := 0x10
  timerTicks := 100
  timerNext := 0x20
  mem a :=
    if a = 0x10 then ⟨0x20, 0x30, ⟨0, 0, 0, 0, 0⟩⟩
    else if a = 0x20 then ⟨0x30, 0x10, ⟨0x1000, 1, 98, 5, 0⟩⟩
    else ⟨0x10, 0x20, ⟨0x2000, 2, 100, 0, 1⟩⟩
  running := none
  done := false
  serials := 2
  live := [0x20, 0x30]
  log := []

theorem start_sample : Start sample where
  ring := ⟨by simp [sample, LinkedLists.Path, nextOf, prevOf], by decide +kernel⟩
  serial_inj := by simp [sample, State.serial]
  serial_lt := by simp [sample, State.serial]
  timerNext := rfl
  running := rfl
  done := rfl
  log := rfl

theorem check_timers_sound_two : Start sample ∧
    ∀ pre, pre <+: [.turn, .act (.add 0 7 0x3000 3 0x40), .act (.cancel 0x20), .turn, .turn, .turn] →
      Sound sample (final step sample pre) :=
  have hok : Allowed step Enabled sample
      [.turn, .act (.add 0 7 0x3000 3 0x40), .act (.cancel 0x20), .turn, .turn, .turn] :=
    ⟨trivial, ⟨rfl, .inr (by decide +kernel)⟩, ⟨_, rfl, .inl (by decide +kernel)⟩, trivial, trivial, trivial, trivial⟩
  ⟨start_sample, (check_timers_sound_iff sample start_sample _ hok).mpr
    ⟨trivial, trivial, fun _ _ _ _ => by decide +kernel, trivial, trivial, trivial, trivial⟩⟩

/-- The second function cancels its own timer, which 2f has done before the call. -/
theorem check_timers_frees_twice :
    ¬ ∀ s, Start s → ∀ inputs, Allowed step Enabled s inputs → ∀ pre, pre <+: inputs → Sound s (final step s pre) := by
  intro h
  have hok : Allowed step Enabled sample [.turn, .turn, .act (.cancel 0x30)] :=
    ⟨trivial, trivial, ⟨_, rfl, .inr ⟨rfl, rfl⟩⟩, trivial⟩
  have hle := (h sample start_sample _ hok _ (prefix_refl _)).freed_le 1
  revert hle
  decide

end Kolibri.Timers
