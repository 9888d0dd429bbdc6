import Kolibri.Posix.PipeThreads

/-! # Pipes are first in, first out

A thread is inside while it holds the lock or works on the pipe without it.
-/

namespace Kolibri.PipeThreads

open Mutex (mutexInit mutexLock mutexLockSlow mutexUnlock forever)
open Posix Ring Run Threads Function Nat List

variable {τ : Type*}

/-! ## What is to hold -/

def Inside (s : State τ) (t : τ) : Prop := s.lock.place t = .holding ∨ (s.pc t).busy = true
  deriving Decidable

def contents (p : Pipe) : List (BitVec 8) :=
  (List.range p.count.toNat).map fun i => p.ring ((p.readEnd.toNat + i) % pipeBufferSize)

/-- What comes out is what went in, and while no thread is inside the rest is in the ring. -/
structure Fifo (s : State τ) : Prop where
  count_le : s.data.pipe.count.toNat ≤ pipeBufferSize
  order : s.data.removed <+: s.data.inserted
  lossless : (∀ t, ¬ Inside s t) → s.data.inserted = s.data.removed ++ contents s.data.pipe

/-- A writer at `.again` without the lock finds nobody inside, and nobody gets the lock meanwhile. -/
def Apart (s : State τ) : Event τ → Prop
  | .go t _ =>
    match s.pc t with
    | .readEnter _ | .readRelock _ | .writeEnter _ | .writeRelock _ =>
      s.lock.count = 1 → ∀ u, (s.pc u).busy = true → s.lock.place u = .holding
    | .writeAgain _ => s.lock.place t = .holding ∨ ∀ u, ¬ Inside s u
    | _ => True
  | _ => True

/-! ## The queue in the ring -/

/-- `n` bytes are in the ring, to be read at `r`, with the next one to be written at `w`. -/
structure Queue (d : Data) (r w n : Nat) : Prop where
  le : n ≤ pipeBufferSize
  place : w ≡ r + n [MOD pipeBufferSize]
  bytes : ∃ q, q.length = n ∧ Holds pipeBufferSize d.pipe.ring r q ∧ d.inserted = d.removed ++ q

variable {d : Data} {n r w k : Nat} {pc : Pc}

theorem Queue.order (h : Queue d r w n) : d.removed <+: d.inserted := by
  obtain ⟨q, -, -, heq⟩ := h.bytes
  exact ⟨q, heq.symm⟩

theorem Queue.take (h : Queue d r w n) (hk : k ≤ n) :
    Queue { d with removed := d.removed ++ (List.range k).map fun i => d.pipe.ring ((r + i) % pipeBufferSize) }
      (r + k) w (n - k) := by
  obtain ⟨q, hlength, hholds, heq⟩ := h.bytes
  have hread := hholds.read (o := 0) (k := k) (by omega)
  rw [Nat.add_zero, drop_zero] at hread
  refine ⟨by have := h.le; omega, ?_, q.drop k, by rw [length_drop, hlength], hholds.drop k, ?_⟩
  · rw [Nat.add_assoc, Nat.add_sub_cancel' hk]
    exact h.place
  · simp [hread, heq, take_append_drop]

theorem Queue.put {d : Data} {r w n : Nat} (h : Queue d r w n) {bytes : List (BitVec 8)}
    (hle : n + bytes.length ≤ pipeBufferSize) :
    Queue { d with pipe.ring := Ring.put pipeBufferSize d.pipe.ring w bytes, inserted := d.inserted ++ bytes }
      r (w + bytes.length) (n + bytes.length) := by
  obtain ⟨q, hlength, hholds, heq⟩ := h.bytes
  refine ⟨hle, ?_, q ++ bytes, by rw [length_append, hlength], ?_, ?_⟩
  · rw [← add_assoc]
    exact h.place.add_right _
  · have hput := hholds.put (show q.length + bytes.length ≤ pipeBufferSize by omega)
    rw [hlength] at hput
    rwa [put_congr h.place]
  · simp only [heq, append_assoc]

theorem Queue.congr {r' w' : Nat} (h : Queue d r w n) (hr : r' ≡ r [MOD pipeBufferSize])
    (hw : w' ≡ w [MOD pipeBufferSize]) : Queue d r' w' n := by
  obtain ⟨q, hlength, hholds, heq⟩ := h.bytes
  refine ⟨h.le, (hw.trans h.place).trans (hr.symm.add_right n), q, hlength, ?_, heq⟩
  rw [← holds_mod] at hholds ⊢
  rwa [show r' % pipeBufferSize = r % pipeBufferSize from hr]

/-! ## What a thread inside knows -/

structure Settled (d : Data) : Prop where
  queue : Queue d d.pipe.readEnd.toNat d.pipe.writeEnd.toNat d.pipe.count.toNat
  readEnd_lt : d.pipe.readEnd.toNat < pipeBufferSize
  writeEnd_lt : d.pipe.writeEnd.toNat < pipeBufferSize

structure Reading (d : Data) (ecx esi : BitVec 32) : Prop where
  queue : Queue d esi.toNat d.pipe.writeEnd.toNat (d.pipe.count.toNat + ecx.toNat)
  fits : esi.toNat + ecx.toNat < 2 * pipeBufferSize
  writeEnd_lt : d.pipe.writeEnd.toNat < pipeBufferSize

structure Writing (d : Data) (ecx edi : BitVec 32) : Prop where
  queue : Queue d d.pipe.readEnd.toNat edi.toNat (d.pipe.count.toNat - ecx.toNat)
  counted : ecx.toNat ≤ d.pipe.count.toNat
  count_le : d.pipe.count.toNat ≤ pipeBufferSize
  fits : edi.toNat + ecx.toNat < 2 * pipeBufferSize
  readEnd_lt : d.pipe.readEnd.toNat < pipeBufferSize

def View (d : Data) : Pc → Prop
  | .readChunk ecx => Settled d ∧ ecx.toNat ≤ d.pipe.count.toNat
  | .readSub ecx esi => Settled d ∧ ecx.toNat ≤ d.pipe.count.toNat ∧ esi = d.pipe.readEnd
  | .readCopy ecx esi => Reading d ecx esi
  | .writeChunk ecx _ => Settled d ∧ d.pipe.count.toNat + ecx.toNat ≤ pipeBufferSize
  | .writeAdd ecx edi _ => Settled d ∧ d.pipe.count.toNat + ecx.toNat ≤ pipeBufferSize ∧ edi = d.pipe.writeEnd
  | .writeCopy ecx edi _ => Writing d ecx edi
  | _ => Settled d

theorem view_of_not_busy (h : pc.busy = false) : View d pc ↔ Settled d := by
  cases pc <;> first | rfl | cases h

theorem View.fifo (h : View d pc) : d.pipe.count.toNat ≤ pipeBufferSize ∧ d.removed <+: d.inserted := by
  have hsettled : Settled d → d.pipe.count.toNat ≤ pipeBufferSize ∧ d.removed <+: d.inserted :=
    fun h => ⟨h.queue.le, h.queue.order⟩
  cases pc with
  | readChunk ecx | readSub ecx esi | writeChunk ecx ebx | writeAdd ecx edi ebx => exact hsettled h.1
  | readCopy ecx esi =>
    have hle := h.queue.le
    exact ⟨by omega, h.queue.order⟩
  | writeCopy ecx edi ebx => exact ⟨h.count_le, h.queue.order⟩
  | _ => exact hsettled h

theorem Settled.contents (h : Settled d) : d.inserted = d.removed ++ contents d.pipe := by
  obtain ⟨q, hlength, hholds, heq⟩ := h.queue.bytes
  have hread := hholds.read (o := 0) (k := d.pipe.count.toNat) (by omega)
  rw [add_zero, drop_zero, ← hlength, take_length, hlength] at hread
  rw [heq, PipeThreads.contents, hread]

theorem check_count_le_avail (avail want : BitVec 32) : (checkCount avail want).toNat ≤ avail.toNat := by
  unfold checkCount
  split_ifs with h
  · exact le_refl _
  · rw [BitVec.lt_def] at h
    omega

theorem toNat_and_fff (x : BitVec 32) : (x &&& 0xFFF).toNat = x.toNat % pipeBufferSize := by
  rw [BitVec.toNat_and]
  exact and_two_pow_sub_one_eq_mod x.toNat 12

theorem toNat_sub_chunk {ecx : BitVec 32} (hk : k ≤ ecx.toNat) : (ecx - BitVec.ofNat 32 k).toNat = ecx.toNat - k := by
  have hk' : (BitVec.ofNat 32 k).toNat = k := by
    rw [BitVec.toNat_ofNat, mod_eq_of_lt (by omega)]
  rw [BitVec.toNat_sub_of_le (by rw [BitVec.le_def, hk']; exact hk), hk']

theorem toNat_add_chunk {x : BitVec 32} (hk : x.toNat + k < 2 ^ 32) :
    (x + BitVec.ofNat 32 k).toNat = x.toNat + k := by
  rw [BitVec.toNat_add, BitVec.toNat_ofNat, add_mod_mod, mod_eq_of_lt hk]

theorem Reading.done {esi : BitVec 32} (h : Reading d 0 esi) : Settled { d with pipe.readEnd := esi &&& 0xFFF } := by
  have hqueue := h.queue
  refine ⟨?_, ?_, h.writeEnd_lt⟩
  · have hmoved : Queue d (esi &&& 0xFFF).toNat d.pipe.writeEnd.toNat d.pipe.count.toNat :=
      hqueue.congr (by rw [toNat_and_fff]; exact mod_modEq _ _) rfl
    exact ⟨hmoved.le, hmoved.place, hmoved.bytes⟩
  · change (esi &&& 0xFFF).toNat < _
    rw [toNat_and_fff]
    exact mod_lt _ (by decide)

theorem Writing.done {edi : BitVec 32} (h : Writing d 0 edi) : Settled { d with pipe.writeEnd := edi &&& 0xFFF } := by
  have hqueue := h.queue
  refine ⟨?_, h.readEnd_lt, ?_⟩
  · have hmoved : Queue d d.pipe.readEnd.toNat (edi &&& 0xFFF).toNat d.pipe.count.toNat :=
      hqueue.congr rfl (by rw [toNat_and_fff]; exact Nat.mod_modEq _ _)
    exact ⟨hmoved.le, hmoved.place, hmoved.bytes⟩
  · change (edi &&& 0xFFF).toNat < _
    rw [toNat_and_fff]
    exact Nat.mod_lt _ (by decide)

theorem read_again_cases (env : Env τ) (d : Data) (esi : BitVec 32) :
    transfer env d (.readAgain esi) = (d, .readEof) ∨
      d.pipe.count = 0 ∧ transfer env d (.readAgain esi) = (d, .readWait esi) ∨
      transfer env d (.readAgain esi) = (d, .readChunk (checkCount d.pipe.count esi)) := by
  simp only [transfer]
  split_ifs with hwriters hempty
  · exact .inl rfl
  · exact .inr (.inl ⟨hempty, rfl⟩)
  · exact .inr (.inr rfl)

theorem write_again_cases (env : Env τ) (d : Data) (ebx : BitVec 32) :
    transfer env d (.writeAgain ebx) = (d, .writeEpipe) ∨
      4096 - d.pipe.count = 0 ∧ transfer env d (.writeAgain ebx) = (d, .writeWait ebx) ∨
      transfer env d (.writeAgain ebx) = (d, .writeChunk (checkCount (4096 - d.pipe.count) ebx) ebx) := by
  simp only [transfer]
  generalize 4096 - d.pipe.count = space
  split_ifs with hreaders hfull
  · exact .inl rfl
  · exact .inr (.inl ⟨hfull, rfl⟩)
  · exact .inr (.inr rfl)

theorem View.transfer (h : View d pc) (env : Env τ) : View (transfer env d pc).1 (transfer env d pc).2 := by
  cases pc with
  | readAgain esi =>
    rcases read_again_cases env d esi with heq | ⟨-, heq⟩ | heq <;> rw [heq]
    · exact h
    · exact h
    · exact ⟨h, check_count_le_avail _ _⟩
  | readChunk ecx => exact ⟨h.1, h.2, rfl⟩
  | readSub ecx esi =>
    obtain ⟨hsettled, hle, rfl⟩ := h
    have hlt := hsettled.readEnd_lt
    have hcount := hsettled.queue.le
    have hback : (d.pipe.count - ecx).toNat + ecx.toNat = d.pipe.count.toNat := by
      rw [BitVec.toNat_sub_of_le (by rwa [BitVec.le_def])]
      omega
    refine ⟨⟨?_, ?_, hsettled.queue.bytes.imp fun q hq => ⟨?_, hq.2⟩⟩, by omega, hsettled.writeEnd_lt⟩
    · exact hback.trans_le hcount
    · exact hback ▸ hsettled.queue.place
    · exact hq.1.trans hback.symm
  | readCopy ecx esi =>
    simp only [PipeThreads.transfer]
    split_ifs with hzero
    · subst hzero
      exact h.done
    have hfits := h.fits
    have hk : min env.k ecx.toNat ≤ ecx.toNat := min_le_right _ _
    generalize min env.k ecx.toNat = k at hk ⊢
    have hesi : (esi + BitVec.ofNat 32 k).toNat = esi.toNat + k :=
      toNat_add_chunk (by rw [pipeBufferSize] at hfits; omega)
    have htake := h.queue.take (show k ≤ d.pipe.count.toNat + ecx.toNat by omega)
    refine ⟨?_, ?_, h.writeEnd_lt⟩
    · rw [hesi, toNat_sub_chunk hk, ← Nat.add_sub_assoc hk]
      exact htake
    · rw [hesi, toNat_sub_chunk hk]
      omega
  | writeAgain ebx =>
    have hchunk : d.pipe.count.toNat + (checkCount (4096 - d.pipe.count) ebx).toNat ≤ pipeBufferSize := by
      have hle := check_count_le_avail (4096 - d.pipe.count) ebx
      have hcount := h.queue.le
      rw [BitVec.toNat_sub_of_le (by rwa [BitVec.le_def])] at hle
      change _ ≤ pipeBufferSize - _ at hle
      omega
    rcases write_again_cases env d ebx with heq | ⟨-, heq⟩ | heq <;> rw [heq]
    · exact h
    · exact h
    · exact ⟨h, hchunk⟩
  | writeChunk ecx ebx => exact ⟨h.1, h.2, rfl⟩
  | writeAdd ecx edi ebx =>
    obtain ⟨hsettled, hle, rfl⟩ := h
    have hlt := hsettled.writeEnd_lt
    have hcount : (d.pipe.count + ecx).toNat = d.pipe.count.toNat + ecx.toNat := by
      rw [BitVec.toNat_add, Nat.mod_eq_of_lt (by rw [pipeBufferSize] at hle; omega)]
    have hback : (d.pipe.count + ecx).toNat - ecx.toNat = d.pipe.count.toNat := by omega
    refine ⟨⟨?_, ?_, hsettled.queue.bytes.imp fun q hq => ⟨?_, hq.2⟩⟩, ?_, ?_, by omega, hsettled.readEnd_lt⟩
    · exact hback.trans_le hsettled.queue.le
    · exact hback ▸ hsettled.queue.place
    · exact hq.1.trans hback.symm
    · change _ ≤ (d.pipe.count + ecx).toNat
      omega
    · exact hcount.trans_le hle
  | writeCopy ecx edi ebx =>
    simp only [PipeThreads.transfer]
    split_ifs with hzero
    · subst hzero
      exact h.done
    have hfits := h.fits
    have hcounted := h.counted
    have hle := h.count_le
    have hk : min env.k ecx.toNat ≤ ecx.toNat := min_le_right _ _
    generalize min env.k ecx.toNat = k at hk ⊢
    have hedi : (edi + BitVec.ofNat 32 k).toNat = edi.toNat + k :=
      toNat_add_chunk (by rw [pipeBufferSize] at hfits; omega)
    have hlength : ((List.range k).map env.src).length = k := by rw [length_map, length_range]
    have hput := h.queue.put (show _ + ((List.range k).map env.src).length ≤ _ by omega)
    rw [hlength] at hput
    refine ⟨?_, ?_, hle, ?_, h.readEnd_lt⟩
    · rw [hedi, toNat_sub_chunk hk, show d.pipe.count.toNat - (ecx.toNat - k) = d.pipe.count.toNat - ecx.toNat + k by omega]
      exact hput
    · rw [toNat_sub_chunk hk]
      exact (Nat.sub_le _ _).trans hcounted
    · rw [hedi, toNat_sub_chunk hk]
      omega
  | _ => exact h

/-! ## The invariant -/

/-- Where a thread can be in the mutex. -/
def Pc.Fits (pc : Pc) (place : Mutex.Place) : Prop :=
  match pc with
  | .idle => place = .out
  | .readEnter _ | .readRelock _ | .writeEnter _ | .writeRelock _ => place ≠ .holding
  | .readAgain _ | .readChunk _ | .readSub _ _ | .readCopy _ _ | .readWakeWriter | .readWakeReader | .readUnlock
  | .readEof | .readWait _ => place = .holding
  | .writeAgain _ | .writeChunk _ _ | .writeAdd _ _ _ | .writeCopy _ _ _ | .writeWake _ | .writeUnlock _ | .writeEpipe
  | .writeWait _ => place = .out ∨ place = .holding

structure Inv (s : State τ) : Prop where
  mutex : Mutex.Inv s.lock
  fits : ∀ t, (s.pc t).Fits (s.lock.place t)
  alone : ∀ t u, Inside s t → Inside s u → t = u
  view : ∀ t, Inside s t → View s.data (s.pc t)
  settled : (∀ t, ¬ Inside s t) → Settled s.data

theorem Inv.fifo {s : State τ} (h : Inv s) : Fifo s := by
  by_cases hinside : ∃ t, Inside s t
  · obtain ⟨t, ht⟩ := hinside
    obtain ⟨hle, horder⟩ := (h.view t ht).fifo
    exact ⟨hle, horder, fun hno => absurd ht (hno t)⟩
  · have hsettled := h.settled fun t ht => hinside ⟨t, ht⟩
    exact ⟨hsettled.queue.le, hsettled.queue.order, fun _ => hsettled.contents⟩

theorem start_inv (cpu : Cpu τ) (ring : Nat → BitVec 8) : Inv (start cpu ring) := by
  have hout : ∀ t, ¬ Inside (start cpu ring) t := by
    rintro t (h | h) <;> cases h
  refine ⟨Mutex.mutex_init_inv cpu, fun _ => rfl, fun t _ ht => absurd ht (hout t), fun t ht => absurd ht (hout t),
    fun _ => ⟨⟨zero_le _, rfl, [], rfl, holds_nil _ _ _, rfl⟩, ?_, ?_⟩⟩
  · exact zero_lt_succ _
  · exact zero_lt_succ _

variable [DecidableEq τ] {s s' : State τ} {t : τ} {p : Pc}

theorem Inv.move (h : Inv s) (hother : ∀ u, u ≠ t → ¬ Inside s u) (hmutex : Mutex.Inv s'.lock)
    (hplace : ∀ u, u ≠ t → s'.lock.place u = s.lock.place u) (hpc : s'.pc = update s.pc t p)
    (hfits : p.Fits (s'.lock.place t)) (hview : View s'.data p) : Inv s' := by
  have hself : s'.pc t = p := by rw [hpc, update_self]
  have hsame : ∀ u, u ≠ t → s'.pc u = s.pc u := fun u hu => by rw [hpc, update_of_ne hu]
  have hother' : ∀ u, Inside s' u → u = t := by
    intro u hu
    by_contra hne
    rw [Inside, hplace u hne, hsame u hne] at hu
    exact hother u hne hu
  refine ⟨hmutex, fun u => ?_, fun u v hu hv => (hother' u hu).trans (hother' v hv).symm, fun u hu => ?_, fun hno => ?_⟩
  · by_cases hu : u = t
    · rw [hu, hself]
      exact hfits
    · rw [hsame u hu, hplace u hu]
      exact h.fits u
  · rw [hother' u hu, hself]
    exact hview
  · have hbusy : p.busy = false := by
      have := hno t
      rw [Inside, hself, not_or, Bool.not_eq_true] at this
      exact this.2
    exact (view_of_not_busy hbusy).mp hview

theorem Inv.outside (h : Inv s) (ht : ¬ Inside s t) (hmutex : Mutex.Inv s'.lock)
    (hplace : ∀ u, u ≠ t → s'.lock.place u = s.lock.place u) (hpc : s'.pc = update s.pc t p)
    (hfits : p.Fits (s'.lock.place t)) (hout : ¬ Inside s' t) (hdata : s'.data = s.data) : Inv s' := by
  have hsame : ∀ u, u ≠ t → s'.pc u = s.pc u := fun u hu => by rw [hpc, update_of_ne hu]
  have hinside : ∀ u, Inside s' u → u ≠ t ∧ Inside s u := by
    intro u hu
    have hne : u ≠ t := by
      rintro rfl
      exact hout hu
    rw [Inside, hplace u hne, hsame u hne] at hu
    exact ⟨hne, hu⟩
  refine ⟨hmutex, fun u => ?_, fun u v hu hv => h.alone u v (hinside u hu).2 (hinside v hv).2, fun u hu => ?_,
    fun hno => ?_⟩
  · by_cases hu : u = t
    · rw [hu, hpc, update_self]
      exact hfits
    · rw [hsame u hu, hplace u hu]
      exact h.fits u
  · obtain ⟨hne, hu⟩ := hinside u hu
    rw [hsame u hne, hdata]
    exact h.view u hu
  · rw [hdata]
    refine h.settled fun u hu => ?_
    by_cases hut : u = t
    · exact ht (hut ▸ hu)
    · refine hno u ?_
      rwa [Inside, hplace u hut, hsame u hut]

/-! ## The mutex -/

section Mutex

variable {l : Mutex.State τ}

omit [DecidableEq τ] in
theorem switch_inv (I : Mutex.Inv l) (next : Option τ) : Mutex.Inv { l with cpu := l.cpu.switch next } :=
  ⟨I.le, I.free, I.one, I.listed, I.nodup, I.first⟩

theorem setRunning_inv (I : Mutex.Inv l) (u : τ) {b : Bool} (h : l.place u ≠ .waiting ∨ b = true) :
    Mutex.Inv { l with cpu := l.cpu.setRunning u b } :=
  Mutex.step_inv l (.setState u b) I h

theorem unlock_inv (I : Mutex.Inv l) (hother : ∀ u, u ≠ t → l.place u ≠ .holding)
    (ht : l.place t = .out ∨ l.place t = .holding) : Mutex.Inv (mutexUnlock l t) := by
  rcases ht with hout | hholding
  · have hno : ∀ u, l.place u ≠ .holding := by
      intro u
      by_cases hu : u = t
      · rw [hu, hout]
        decide
      · exact hother u hu
    have hcount := I.free.mpr hno
    have hplace : update l.place t Mutex.Place.out = l.place := by
      rw [← hout, update_eq_self]
    unfold mutexUnlock
    rw [hplace, ← hcount]
    split
    · exact I
    · exact setRunning_inv I _ (.inr rfl)
  · exact Mutex.mutex_unlock_inv I hholding

theorem lock_step_spec (I : Mutex.Inv l) (ht : l.place t ≠ .holding) (next : Option τ) (cli : Bool) :
    Mutex.Inv (lockStep l t next cli) ∧ (∀ u, u ≠ t → (lockStep l t next cli).place u = l.place u) ∧
      ((lockStep l t next cli).place t = .holding → l.count = 1) := by
  have hforever : ∀ l : Mutex.State τ, (∀ u, u ≠ t → (forever l t next).place u = l.place u) ∧
      ((forever l t next).place t = .holding → l.count = 1) := by
    intro l
    simp only [forever]
    by_cases hcount : l.count - 1 = 0
    · rw [if_pos hcount]
      exact ⟨fun u hu => update_of_ne hu .., fun _ => by omega⟩
    · rw [if_neg hcount]
      refine ⟨fun u hu => update_of_ne hu .., fun h => ?_⟩
      simp only [update_self] at h
      cases h
  have hle := I.le
  unfold lockStep
  cases hplace : l.place t with
  | holding => exact absurd hplace ht
  | decremented =>
    refine ⟨Mutex.mutex_lock_slow_inv next I hplace, ?_⟩
    exact hforever { l with waitList := l.waitList ++ [t] }
  | waiting => exact ⟨Mutex.again_inv next I hplace, hforever l⟩
  | out =>
    have hinv := Mutex.mutex_lock_inv I hplace
    have hother : ∀ u, u ≠ t → (mutexLock l t).place u = l.place u := fun u hu => update_of_ne hu ..
    have hself : (mutexLock l t).place t = if 0 ≤ l.count - 1 then .holding else .decremented := update_self ..
    simp only
    split_ifs with hslow
    · simp only [Bool.and_eq_true, decide_eq_true_eq] at hslow
      refine ⟨Mutex.mutex_lock_slow_inv next hinv hslow.2, fun u hu => ?_, fun h => ?_⟩
      · exact ((hforever _).1 u hu).trans (hother u hu)
      · -- The count was below 1 before it was decremented.
        have hone : l.count - 1 = 1 := (hforever _).2 h
        omega
    · refine ⟨hinv, hother, fun h => ?_⟩
      rw [hself] at h
      split_ifs at h with hfree
      omega

end Mutex

/-! ## Steps -/

/-- Threads were made runnable, and nothing else happened. -/
structure Woken (s s' : State τ) : Prop where
  mutex : Mutex.Inv s.lock → Mutex.Inv s'.lock
  place : s'.lock.place = s.lock.place
  data : s'.data = s.data
  rlist : s'.rlist = s.rlist
  wlist : s'.wlist = s.wlist
  pc : s'.pc = s.pc

omit [DecidableEq τ] in
theorem Woken.refl (s : State τ) : Woken s s := ⟨id, rfl, rfl, rfl, rfl, rfl⟩

omit [DecidableEq τ] in
theorem Woken.trans {s'' : State τ} (h : Woken s s') (h' : Woken s' s'') : Woken s s'' :=
  ⟨h'.mutex ∘ h.mutex, h'.place.trans h.place, h'.data.trans h.data, h'.rlist.trans h.rlist, h'.wlist.trans h.wlist,
    h'.pc.trans h.pc⟩

theorem woken_activate (s : State τ) (x : Target τ) : Woken s (s.activate x) := by
  refine ⟨fun I => ?_, ?_, rfl, rfl, rfl, rfl⟩
  · cases x with
    | slot u => exact setRunning_inv I u (.inr rfl)
    | _ => exact I
  · cases x <;> rfl

theorem woken_readWakeWriter (s : State τ) (behind : Target τ) : Woken s (s.readWakeWriter behind) := by
  unfold State.readWakeWriter
  split_ifs
  · exact .refl s
  · exact woken_activate s _

theorem woken_readWakeReader (s : State τ) (behind : Target τ) : Woken s (s.readWakeReader behind) := by
  unfold State.readWakeReader
  split_ifs
  · exact .refl s
  · exact woken_activate s _

theorem woken_writeWake (s : State τ) (behind : Target τ) : Woken s (s.writeWake behind) := by
  have hwriter : ∀ (s : State τ) x, Woken s (if s.data.pipe.count = 4096 ∨ s.wlist = [] then s else s.activate x) := by
    intro s x
    split_ifs
    · exact .refl s
    · exact woken_activate s _
  unfold State.writeWake
  by_cases hrlist : s.rlist = []
  · simp only [hrlist, if_true]
    exact hwriter s _
  · simp only [hrlist, if_false]
    exact (woken_activate s _).trans (hwriter _ _)

structure Sole (s : State τ) (t : τ) : Prop where
  other : ∀ u, u ≠ t → ¬ Inside s u
  view : View s.data (s.pc t)

omit [DecidableEq τ] in
theorem Inv.sole (h : Inv s) (ht : Inside s t) : Sole s t :=
  ⟨fun _ hne hu => hne (h.alone _ _ hu ht), h.view t ht⟩

theorem Inv.wake (h : Inv s) (ht : Sole s t) (hwoken : Woken s s') (hfits : p.Fits (s.lock.place t))
    (hview : View s.data p) : Inv (s'.goto t p) := by
  refine h.move (p := p) ht.other (hwoken.mutex h.mutex) (fun u _ => congrFun hwoken.place u) ?_ ?_ ?_
  · change update s'.pc t p = _
    rw [hwoken.pc]
  · change p.Fits (s'.lock.place t)
    rwa [hwoken.place]
  · change View s'.data p
    rwa [hwoken.data]

theorem Inv.unlock (h : Inv s) (ht : Sole s t)
    (hlock : Mutex.Inv s'.lock) (hplaces : s'.lock.place = (mutexUnlock s.lock t).place)
    (hpc : s'.pc = update s.pc t p) (hfits : p.Fits .out) (hdata : s'.data = s.data) (hview : View s.data p) :
    Inv s' := by
  refine h.move ht.other hlock (fun u hu => ?_) hpc ?_ (by rwa [hdata])
  · rw [hplaces]
    exact update_of_ne hu ..
  · rw [hplaces]
    change p.Fits (update s.lock.place t .out t)
    rwa [update_self]

theorem Inv.locking (h : Inv s) (hplace : s.lock.place t ≠ .holding) (hbusy : (s.pc t).busy = false)
    (hstay : ∀ x, x ≠ Mutex.Place.holding → (s.pc t).Fits x)
    (hapart : s.lock.count = 1 → ∀ u, (s.pc u).busy = true → s.lock.place u = .holding) (next : Option τ) (cli : Bool)
    {locked : State τ → State τ} (hlocked : ∀ s', (locked s').lock = s'.lock ∧ (locked s').data = s'.data ∧
      (locked s').pc = update s'.pc t p) (hfits : p.Fits .holding) (hp : p.busy = false) :
    Inv (s.locking t next cli locked) := by
  obtain ⟨hmutex, hother, hfree⟩ := lock_step_spec h.mutex hplace next cli
  unfold State.locking
  simp only
  split_ifs with hgot
  · obtain ⟨hlock, hdata, hpc⟩ := hlocked { s with lock := lockStep s.lock t next cli }
    have hno : ∀ u, ¬ Inside s u := by
      have hnone := h.mutex.free.mp (hfree hgot)
      rintro u (hu | hu)
      · exact hnone u hu
      · exact hnone u (hapart (hfree hgot) u hu)
    refine h.move (fun u _ => hno u) ?_ (fun u hu => ?_) hpc ?_ ?_
    · rwa [hlock]
    · rw [hlock]
      exact hother u hu
    · rw [hlock]
      exact hgot ▸ hfits
    · rw [hdata, view_of_not_busy hp]
      exact h.settled hno
  · refine h.outside (t := t) (p := s.pc t) ?_ hmutex hother (update_eq_self ..).symm (hstay _ hgot) ?_ rfl
    · rintro (ht | ht)
      · exact hplace ht
      · rw [hbusy] at ht
        cases ht
    · rintro (ht | ht)
      · exact hgot ht
      · rw [hbusy] at ht
        cases ht

/-- The steps between `.again` and the wake-ups. -/
def Pc.transfers : Pc → Bool
  | .readAgain _ | .readChunk _ | .readSub _ _ | .readCopy _ _ | .writeAgain _ | .writeChunk _ _ | .writeAdd _ _ _
  | .writeCopy _ _ _ => true
  | _ => false

theorem go_transfer (h : (s.pc t).transfers = true) (env : Env τ) :
    s.go t env = { s with data := (transfer env s.data (s.pc t)).1 }.goto t (transfer env s.data (s.pc t)).2 := by
  cases hpc : s.pc t with
  | readAgain _ | readChunk _ | readSub _ _ | readCopy _ _ | writeAgain _ | writeChunk _ _ | writeAdd _ _ _
  | writeCopy _ _ _ => simp only [State.go, hpc]
  | _ =>
    rw [hpc] at h
    cases h

omit [DecidableEq τ] in
theorem transfer_fits {place : Mutex.Place} (h : p.transfers = true) (hfits : p.Fits place) (env : Env τ) (d : Data) :
    (transfer env d p).2.Fits place := by
  cases p with
  | readAgain esi => rcases read_again_cases env d esi with heq | ⟨-, heq⟩ | heq <;> rw [heq] <;> exact hfits
  | writeAgain ebx =>
    rcases write_again_cases env d ebx with heq | ⟨-, heq⟩ | heq <;> rw [heq] <;> exact hfits
  | readCopy ecx esi | writeCopy ecx edi ebx =>
    simp only [transfer]
    split_ifs <;> exact hfits
  | readChunk ecx | readSub ecx esi | writeChunk ecx ebx | writeAdd ecx edi ebx => exact hfits
  | _ => cases h

theorem Inv.transfers (h : Inv s) (ht : Sole s t) (hp : (s.pc t).transfers = true) (env : Env τ) :
    Inv (s.go t env) := by
  rw [go_transfer hp]
  exact h.move ht.other h.mutex (fun _ _ => rfl) rfl (transfer_fits hp (h.fits t) env s.data) (ht.view.transfer env)

omit [DecidableEq τ] in
theorem Inv.busy (h : Inv s) (hpc : s.pc t = p) (hp : p.busy = true) :
    Sole s t ∧ p.Fits (s.lock.place t) ∧ View s.data p := by
  subst hpc
  exact ⟨h.sole (.inr hp), h.fits t, h.view t (.inr hp)⟩

theorem Sole.unlock (ht : Sole s t) (h : Inv s) (hplace : s.lock.place t = .out ∨ s.lock.place t = .holding) :
    Mutex.Inv (mutexUnlock s.lock t) :=
  unlock_inv h.mutex (fun u hu hholding => ht.other u hu (.inl hholding)) hplace

theorem go_inv (h : Inv s) {env : Env τ} (hapart : Apart s (.go t env)) : Inv (s.go t env) := by
  have hfits := h.fits t
  cases hpc : s.pc t with
  | idle =>
    simp only [State.go, hpc]
    exact h
  | readEnter esi | readRelock esi | writeEnter ebx | writeRelock ebx =>
    rw [hpc] at hfits
    simp only [Apart, hpc] at hapart
    simp only [State.go, hpc]
    refine h.locking hfits (by rw [hpc]; rfl) (fun x hx => by rwa [hpc]) hapart _ _
      (fun s' => ⟨rfl, rfl, rfl⟩) (by first | exact rfl | exact .inr rfl) rfl
  | readAgain esi => exact h.transfers (h.sole (.inl (by rwa [hpc] at hfits))) (by rw [hpc]; rfl) env
  | writeAgain ebx =>
    refine h.transfers ?_ (by rw [hpc]; rfl) env
    simp only [Apart, hpc] at hapart
    rcases hapart with hholding | hnone
    · exact h.sole (.inl hholding)
    · refine ⟨fun u _ => hnone u, ?_⟩
      rw [hpc]
      exact h.settled hnone
  | readChunk _ | readSub _ _ | readCopy _ _ | writeChunk _ _ | writeAdd _ _ _ | writeCopy _ _ _ =>
    exact h.transfers (h.busy hpc rfl).1 (by rw [hpc]; rfl) env
  | readWakeWriter =>
    obtain ⟨ht, hfits, hview⟩ := h.busy hpc rfl
    simp only [State.go, hpc]
    exact h.wake ht (woken_readWakeWriter s _) hfits hview
  | readWakeReader =>
    obtain ⟨ht, hfits, hview⟩ := h.busy hpc rfl
    simp only [State.go, hpc]
    exact h.wake ht (woken_readWakeReader s _) hfits hview
  | writeWake ebx =>
    obtain ⟨ht, hfits, hview⟩ := h.busy hpc rfl
    simp only [State.go, hpc]
    exact h.wake ht (woken_writeWake s _) hfits hview
  | readUnlock | readEof =>
    obtain ⟨ht, hfits, hview⟩ := h.busy hpc rfl
    simp only [State.go, hpc]
    exact h.unlock ht (ht.unlock h (.inr hfits)) rfl rfl rfl rfl hview
  | writeEpipe =>
    obtain ⟨ht, hfits, hview⟩ := h.busy hpc rfl
    simp only [State.go, hpc]
    exact h.unlock ht (ht.unlock h hfits) rfl rfl rfl rfl hview
  | writeUnlock ebx =>
    obtain ⟨ht, hfits, hview⟩ := h.busy hpc rfl
    simp only [State.go, hpc]
    refine h.unlock ht (ht.unlock h hfits) rfl rfl ?_ rfl ?_
    · split_ifs
      · exact rfl
      · exact .inl rfl
    · split_ifs <;> exact hview
  | readWait esi =>
    obtain ⟨ht, hfits, hview⟩ := h.busy hpc rfl
    simp only [State.go, hpc]
    have hout : (mutexUnlock s.lock t).place t ≠ .waiting := by
      change update s.lock.place t .out t ≠ _
      rw [update_self]
      decide
    refine h.unlock ht ?_ rfl rfl ?_ rfl hview
    · exact switch_inv (setRunning_inv (ht.unlock h (.inr hfits)) t (.inl hout)) env.next
    · exact fun heq => by cases heq
  | writeWait ebx =>
    obtain ⟨ht, hfits, hview⟩ := h.busy hpc rfl
    simp only [State.go, hpc]
    refine h.unlock ht (switch_inv (ht.unlock h hfits) env.next) rfl rfl ?_ rfl hview
    exact fun heq => by cases heq

theorem step_inv (s : State τ) (e : Event τ) (h : Inv s) (hok : Enabled s e) (hapart : Apart s e) : Inv (step s e).1 := by
  cases e with
  | read t esi | write t esi =>
    have hfits := h.fits t
    rw [hok.2] at hfits
    have hout : ∀ p : Pc, p.busy = false → ¬ Inside (s.goto t p) t := by
      rintro p hp (hholding | hbusy)
      · cases hfits.symm.trans hholding
      · change (update s.pc t p t).busy = true at hbusy
        rw [update_self, hp] at hbusy
        cases hbusy
    refine h.outside ?_ h.mutex (fun _ _ => rfl) rfl ?_ (hout _ rfl) rfl
    · rintro (hholding | hbusy)
      · cases hfits.symm.trans hholding
      · rw [hok.2] at hbusy
        cases hbusy
    · exact fun hholding => by cases hfits.symm.trans hholding
  | go t env => exact go_inv h hapart
  | interrupt next => exact ⟨switch_inv h.mutex next, h.fits, h.alone, h.view, h.settled⟩
  | setState t running =>
    have hmutex := setRunning_inv h.mutex t (hok.imp_left And.left)
    exact ⟨hmutex, h.fits, h.alone, h.view, h.settled⟩

/-! ## Every run -/

/-- **Pipes are queues** if no other thread comes in while a writer works without the lock. -/
theorem pipe_fifo (cpu : Cpu τ) (ring : Nat → BitVec 8) (es : List (Event τ))
    (hok : Allowed step Enabled (start cpu ring) es) (hapart : Allowed step Apart (start cpu ring) es) :
    ∀ pre, pre <+: es → Fifo (final step (start cpu ring) pre) := by
  rintro pre ⟨post, rfl⟩
  have hboth := allowed_and (allowed_append.mp hok).1 (allowed_append.mp hapart).1
  have hinv := final_inv (fun s e h he => step_inv s e h he.1 he.2) (start_inv cpu ring) hboth
  exact hinv.fifo

instance [Fintype τ] (s : State τ) : (e : Event τ) → Decidable (Apart s e)
  | .go t _ => by
    dsimp only [Apart]
    generalize s.pc t = pc
    refine pc.casesOn ?_ ?_ ?_ ?_ ?_ ?_ ?_ ?_ ?_ ?_ ?_ ?_ ?_ ?_ ?_ ?_ ?_ ?_ ?_ ?_ ?_ ?_
    all_goals intros; infer_instance
  | .read .. | .write .. | .interrupt _ | .setState .. => instDecidableTrue

def copyAll : Env Bool := ⟨none, .other 0, 4096, BitVec.ofNat 8⟩

def bothRun : Cpu Bool := ⟨some false, fun _ => true⟩

def writeInTwoPasses : List (Event Bool) :=
  [.write false 5000] ++ List.replicate 8 (.go false copyAll) ++
    [.interrupt (some true), .read true 1000] ++ List.replicate 9 (.go true copyAll) ++
    [.interrupt (some false)] ++ List.replicate 7 (.go false copyAll)

theorem pipe_fifo_two_passes : Allowed step Enabled (start bothRun fun _ => 0) writeInTwoPasses ∧
    Allowed step Apart (start bothRun fun _ => 0) writeInTwoPasses ∧
    Fifo (final step (start bothRun fun _ => 0) writeInTwoPasses) :=
  have hok : Allowed step Enabled (start bothRun fun _ => 0) writeInTwoPasses := by decide +kernel
  have hapart : Allowed step Apart (start bothRun fun _ => 0) writeInTwoPasses := by decide +kernel
  ⟨hok, hapart, pipe_fifo bothRun (fun _ => 0) writeInTwoPasses hok hapart _ prefix_rfl⟩

/-- The writer sees the room without the lock, then the other thread fills it. -/
def writeWithoutLock : List (Event Bool) :=
  [.write false 5000] ++ List.replicate 8 (.go false copyAll) ++
    [.interrupt (some true), .read true 10] ++ List.replicate 9 (.go true copyAll) ++
    [.interrupt (some false), .go false copyAll] ++
    [.interrupt (some true), .write true 10] ++ List.replicate 4 (.go true copyAll) ++
    [.interrupt (some false), .go false copyAll, .go false copyAll]

theorem pipe_overfilled : ¬ ∀ (cpu : Cpu Bool) ring es, Allowed step Enabled (start cpu ring) es →
    ∀ pre, pre <+: es → Fifo (final step (start cpu ring) pre) := by
  intro h
  have hfifo := h bothRun (fun _ => 0) writeWithoutLock (by decide +kernel) _ prefix_rfl
  have hle := hfifo.count_le
  revert hle
  decide

end Kolibri.PipeThreads
