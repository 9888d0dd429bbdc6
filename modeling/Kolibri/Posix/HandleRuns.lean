import Kolibri.Posix.Handles
import Kolibri.Lib.FreeList
import Kolibri.Lib.Run

/-! # Which handles `sys_futex` accepts -/

namespace Kolibri.Posix

open Bytes FreeList Run Function List

/-! ## The handle table -/

structure TableInv (p : Process) (free : List Nat) : Prop where
  nodup : free.Nodup
  range : ∀ i ∈ free, 3 ≤ i ∧ i < htabLen
  chain : Chain (fun i => (p.htab i).toNat) p.htNext.toNat free
  count : p.htFree.toNat = free.length
  nextLow : p.htNext.toNat < userTop
  freeSlot : ∀ i ∈ free, (p.htab i).toNat < userTop
  usedSlot : ∀ i, 3 ≤ i → i < htabLen → i ∉ free →
    (∃ k, p.live (p.htab i) = some k) ∧ (p.objs (p.htab i)).handle.toNat = i
  liveObj : ∀ a k, p.live a = some k → userTop ≤ a.toNat ∧
    3 ≤ (p.objs a).handle.toNat ∧ (p.objs a).handle.toNat < htabLen ∧
    (p.objs a).handle.toNat ∉ free ∧ p.htab (p.objs a).handle.toNat = a
  futexMagic : ∀ a, p.live a = some .futex → (p.objs a).magic = futx

theorem initHandles_inv (objs : BitVec 32 → Obj) (mem : Nat → BitVec 8)
    (state : BitVec 32 → BitVec 32) : TableInv (initHandles objs mem state) (List.range' 3 1003) := by
  have hlink : ∀ i < htabLen, ((initHandles objs mem state).htab i).toNat = i + 1 := by
    intro i hi
    unfold htabLen at hi
    simp only [initHandles, BitVec.toNat_ofNat]
    omega
  constructor
  case nodup => exact nodup_range'
  case range =>
    intro i hi
    rw [mem_range'_1] at hi
    exact hi
  case chain => exact chain_range 3 1003 fun i _ hi => hlink i hi
  case count => rw [length_range']; rfl
  case nextLow => exact (by decide : (3 : BitVec 32).toNat < userTop)
  case freeSlot =>
    intro i hi
    rw [mem_range'_1] at hi
    rw [hlink i hi.2]
    unfold userTop
    omega
  case usedSlot =>
    intro i h3 hlen hnot
    rw [mem_range'_1] at hnot
    exact absurd ⟨h3, hlen⟩ hnot
  case liveObj => intro a k h; cases h
  case futexMagic => intro a h; cases h

variable {free : List Nat} {p : Process} {a blk ecx : BitVec 32} {k : Kind} {i : Nat}

theorem tableInv_congr {q : Process} (h : TableInv p free) (hfree : q.htFree = p.htFree) (hnext : q.htNext = p.htNext)
    (htab : q.htab = p.htab) (hlive : q.live = p.live)
    (hobj : ∀ a, (q.objs a).handle = (p.objs a).handle ∧ (q.objs a).magic = (p.objs a).magic) : TableInv q free := by
  constructor
  case nodup => exact h.nodup
  case range => exact h.range
  case chain => rw [htab, hnext]; exact h.chain
  case count => rw [hfree]; exact h.count
  case nextLow => rw [hnext]; exact h.nextLow
  case freeSlot => rw [htab]; exact h.freeSlot
  case usedSlot =>
    intro i h3 hlen hnot
    rw [htab, hlive, (hobj _).1]
    exact h.usedSlot i h3 hlen hnot
  case liveObj =>
    intro a k ha
    rw [hlive] at ha
    rw [htab, (hobj a).1]
    exact h.liveObj a k ha
  case futexMagic =>
    intro a ha
    rw [hlive] at ha
    rw [(hobj a).2]
    exact h.futexMagic a ha

/-! ## Destroying -/

theorem release_inv (h : TableInv p free) (ha : p.live a = some k) :
    TableInv { p.pushHandle (p.objs a).handle with live := update p.live a none }
      ((p.objs a).handle.toNat :: free) := by
  obtain ⟨hhigh, h3, hlen, hnot, hslot⟩ := h.liveObj a k ha
  have hnodup : ((p.objs a).handle.toNat :: free).Nodup := nodup_cons.mpr ⟨hnot, h.nodup⟩
  have hrange : ∀ i ∈ (p.objs a).handle.toNat :: free, 3 ≤ i ∧ i < htabLen := by
    intro i hi
    rcases mem_cons.mp hi with rfl | hi
    · exact ⟨h3, hlen⟩
    · exact h.range i hi
  have hkeep : ∀ i, i ≠ (p.objs a).handle.toNat →
      update p.htab (p.objs a).handle.toNat p.htNext i = p.htab i := fun i hi => update_of_ne hi _ _
  constructor
  case nodup => exact hnodup
  case range => exact hrange
  case chain =>
    apply chain_push h.chain
    · simp [Process.pushHandle]
    · intro i hi
      simp only [Process.pushHandle]
      rw [hkeep i (fun heq => hnot (heq ▸ hi))]
  case count =>
    have hshort := length_le_of_bounded hnodup fun i hi => (hrange i hi).2
    rw [length_cons] at hshort ⊢
    unfold htabLen at hshort
    show (p.htFree + 1).toNat = free.length + 1
    rw [BitVec.toNat_add, h.count]
    exact Nat.mod_eq_of_lt (by show free.length + 1 < 2 ^ 32; omega)
  case nextLow =>
    show (p.objs a).handle.toNat < userTop
    unfold htabLen at hlen
    unfold userTop
    omega
  case freeSlot =>
    intro i hi
    show (update p.htab (p.objs a).handle.toNat p.htNext i).toNat < userTop
    by_cases heq : i = (p.objs a).handle.toNat
    · rw [heq, update_self]
      exact h.nextLow
    · rw [hkeep i heq]
      exact h.freeSlot i ((mem_cons.mp hi).resolve_left heq)
  case usedSlot =>
    intro i hi3 hilen hinot
    rw [mem_cons, not_or] at hinot
    obtain ⟨⟨k', hk'⟩, hback⟩ := h.usedSlot i hi3 hilen hinot.2
    have hne : p.htab i ≠ a := by
      intro heq
      rw [heq] at hback
      exact hinot.1 hback.symm
    simp only [Process.pushHandle]
    rw [hkeep i hinot.1]
    exact ⟨⟨k', by rw [update_of_ne hne]; exact hk'⟩, hback⟩
  case liveObj =>
    intro a' k' ha'
    have hne : a' ≠ a := by
      rintro rfl
      simp at ha'
    simp only [update_of_ne hne] at ha'
    obtain ⟨hhigh', h3', hlen', hnot', hslot'⟩ := h.liveObj a' k' ha'
    have hhandle : (p.objs a').handle.toNat ≠ (p.objs a).handle.toNat := by
      intro heq
      rw [heq, hslot] at hslot'
      exact hne hslot'.symm
    refine ⟨hhigh', h3', hlen', ?_, ?_⟩
    · rw [mem_cons, not_or]
      exact ⟨hhandle, hnot'⟩
    · simp only [Process.pushHandle]
      rw [hkeep _ hhandle]
      exact hslot'
  case futexMagic =>
    intro a' ha'
    have hne : a' ≠ a := by
      rintro rfl
      simp at ha'
    simp only [update_of_ne hne] at ha'
    exact h.futexMagic a' ha'

/-! ## Creating -/

/-- What `malloc` promises: no memory, or a kernel address outside the live objects. -/
def MallocOk (p : Process) (blk : BitVec 32) : Prop :=
  blk ≠ 0 → userTop ≤ blk.toNat ∧ p.live blk = none

theorem create_object_fail (p : Process) (junk : Obj) : createObject p 0 junk = (p, 0) := by
  unfold createObject
  by_cases hneg : (p.htFree - 1).toInt < 0
  · rw [if_pos hneg]
  · rw [if_neg hneg, if_pos rfl]
    simp [Process.pushHandle, update_eq_self, BitVec.sub_add_cancel]

theorem create_object_full (h : p.htFree.toNat = 0) (blk : BitVec 32) (junk : Obj) :
    createObject p blk junk = (p, 0) := by
  have hzero : p.htFree = 0 := BitVec.eq_of_toNat_eq h
  unfold createObject
  rw [if_pos (by rw [hzero]; decide)]

theorem create_object_ok (h : TableInv p (i :: free)) (hblk : blk ≠ 0) (junk : Obj) :
    createObject p blk junk = ({ p with
          htFree := p.htFree - 1
          htNext := p.htab i
          objs := update p.objs blk { junk with handle := p.htNext }
          htab := update p.htab i blk
          live := update p.live blk (some .object) }, blk) := by
  have hcount := h.count
  have hshort := length_le_of_bounded h.nodup fun j hj => (h.range j hj).2
  rw [length_cons] at hcount hshort
  unfold htabLen at hshort
  have hpos : ¬ (p.htFree - 1).toInt < 0 := by
    have hle : (1 : BitVec 32) ≤ p.htFree := by
      rw [BitVec.le_def]
      show 1 ≤ p.htFree.toNat
      omega
    have hsub : (p.htFree - 1).toNat = p.htFree.toNat - 1 := BitVec.toNat_sub_of_le hle
    rw [BitVec.toInt_eq_toNat_of_lt (by omega)]
    omega
  have hi : p.htNext.toNat = i := h.chain.1
  unfold createObject
  rw [if_neg hpos, if_neg hblk, hi]

theorem create_object_inv (h : TableInv p (i :: free)) (hblk : blk ≠ 0) (hmalloc : MallocOk p blk) (junk : Obj) :
    TableInv (createObject p blk junk).1 free := by
  obtain ⟨hhigh, hfresh⟩ := hmalloc hblk
  obtain ⟨hi, hnodup⟩ := nodup_cons.mp h.nodup
  have hirange := h.range i mem_cons_self
  have hnext : p.htNext.toNat = i := h.chain.1
  have hkeep : ∀ j, j ≠ i → update p.htab i blk j = p.htab j := fun j hj => update_of_ne hj _ _
  rw [create_object_ok h hblk junk]
  constructor
  case nodup => exact hnodup
  case range => exact fun j hj => h.range j (mem_cons_of_mem _ hj)
  case chain =>
    apply chain_congr h.chain.2
    intro j hj
    simp only
    rw [hkeep j (fun heq => hi (heq ▸ hj))]
  case count =>
    have hcount := h.count
    rw [length_cons] at hcount
    have hle : (1 : BitVec 32) ≤ p.htFree := by
      rw [BitVec.le_def]
      show 1 ≤ p.htFree.toNat
      omega
    have hsub : (p.htFree - 1).toNat = p.htFree.toNat - 1 := BitVec.toNat_sub_of_le hle
    show (p.htFree - 1).toNat = free.length
    omega
  case nextLow => exact h.freeSlot i mem_cons_self
  case freeSlot =>
    intro j hj
    simp only
    rw [hkeep j (fun heq => hi (heq ▸ hj))]
    exact h.freeSlot j (mem_cons_of_mem _ hj)
  case usedSlot =>
    intro j h3 hlen hnot
    by_cases heq : j = i
    · subst heq
      simp only [update_self]
      exact ⟨⟨.object, rfl⟩, hnext⟩
    have hnot' : j ∉ i :: free := by
      rw [mem_cons, not_or]
      exact ⟨heq, hnot⟩
    obtain ⟨⟨k, hk⟩, hback⟩ := h.usedSlot j h3 hlen hnot'
    have hne : p.htab j ≠ blk := by
      intro hb
      rw [hb, hfresh] at hk
      cases hk
    simp only
    rw [hkeep j heq, update_of_ne hne, update_of_ne hne]
    exact ⟨⟨k, hk⟩, hback⟩
  case liveObj =>
    intro a k ha
    by_cases heq : a = blk
    · subst heq
      simp only [update_self, hnext]
      exact ⟨hhigh, hirange.1, hirange.2, hi, trivial⟩
    simp only [update_of_ne heq] at ha ⊢
    obtain ⟨hhigh', h3', hlen', hnot', hslot'⟩ := h.liveObj a k ha
    rw [mem_cons, not_or] at hnot'
    rw [hkeep _ hnot'.1]
    exact ⟨hhigh', h3', hlen', hnot'.2, hslot'⟩
  case futexMagic =>
    intro a ha
    have heq : a ≠ blk := by
      rintro rfl
      simp at ha
    simp only [update_of_ne heq] at ha ⊢
    exact h.futexMagic a ha

section

variable (h : TableInv p free)
include h

theorem make_futex_inv (ha : p.live a = some k) (ptr : BitVec 32) :
    TableInv { p with
      objs := update p.objs a
        { p.objs a with magic := futx, destroy := 0, pointer := ptr, waitList := [], flags := 0 }
      live := update p.live a (some .futex) } free := by
  have hhandle : ∀ b, (update p.objs a
      { p.objs a with magic := futx, destroy := 0, pointer := ptr, waitList := [], flags := 0 } b).handle =
      (p.objs b).handle := by
    intro b
    by_cases heq : b = a
    · subst heq
      rw [update_self]
    · rw [update_of_ne heq]
  have hlive : ∀ b, (∃ k, update p.live a (some .futex) b = some k) ↔ ∃ k, p.live b = some k := by
    intro b
    by_cases heq : b = a
    · subst heq
      simp [ha]
    · rw [update_of_ne heq]
  constructor
  case nodup => exact h.nodup
  case range => exact h.range
  case chain => exact h.chain
  case count => exact h.count
  case nextLow => exact h.nextLow
  case freeSlot => exact h.freeSlot
  case usedSlot =>
    intro i h3 hlen hnot
    simp only [hhandle, hlive]
    exact h.usedSlot i h3 hlen hnot
  case liveObj =>
    intro b k' hb
    obtain ⟨k'', hb'⟩ := (hlive b).mp ⟨k', hb⟩
    simp only [hhandle]
    exact h.liveObj b k'' hb'
  case futexMagic =>
    intro b hb
    by_cases heq : b = a
    · subst heq
      simp only [update_self]
    · simp only [update_of_ne heq] at hb ⊢
      exact h.futexMagic b hb

theorem create_futex_inv (ptr : BitVec 32) (hmalloc : MallocOk p blk) (junk : Obj) :
    ∃ free', TableInv (createFutex p ptr blk junk).1 free' := by
  by_cases hblk : blk = 0
  · subst hblk
    simp only [createFutex, create_object_fail, if_true]
    exact ⟨free, h⟩
  cases free with
  | nil =>
    simp only [createFutex, create_object_full h.count, if_true]
    exact ⟨[], h⟩
  | cons i free =>
    have hinv := create_object_inv h hblk hmalloc junk
    have heax : (createObject p blk junk).2 = blk := by rw [create_object_ok h hblk]
    have hlive : (createObject p blk junk).1.live blk = some .object := by
      rw [create_object_ok h hblk]
      exact update_self ..
    refine ⟨free, ?_⟩
    simp only [createFutex, heax, hblk, if_false]
    exact make_futex_inv hinv hlive ptr

/-! ## Futex calls -/

theorem setWaiters_inv (a : BitVec 32) (l : List (BitVec 32)) : TableInv (p.setWaiters a l) free := by
  refine tableInv_congr h rfl rfl rfl rfl fun b => ?_
  unfold Process.setWaiters
  by_cases heq : b = a
  · subst heq
    simp
  · simp [update_of_ne heq]

theorem destroy_futex_inv {futex : BitVec 32} (hlive : p.live futex = some .futex) :
    ∃ free', TableInv (destroyFutex p futex).1 free' := by
  have hhigh := (h.liveObj futex .futex hlive).1
  have hhandle : p.handleAt futex = (p.objs futex).handle := if_neg (Nat.not_lt.mpr hhigh)
  unfold destroyFutex
  split_ifs
  · exact ⟨free, h⟩
  · rw [hhandle]
    exact ⟨_, release_inv h hlive⟩

theorem futex_wait_inv (futex slot control timeout : BitVec 32) :
    TableInv (futexWait p futex slot control timeout).1 free := by
  unfold futexWait
  split
  · exact h
  split
  · exact h
  · split
    · exact h
    · exact tableInv_congr (setWaiters_inv h futex _) rfl rfl rfl rfl fun _ => ⟨rfl, rfl⟩

theorem futex_resume_inv (futex slot control : BitVec 32) (timedOut : Bool) :
    TableInv (futexResume p futex slot control timedOut).1 free := by
  unfold futexResume
  simp only
  split_ifs
  · exact setWaiters_inv h futex _
  · exact h
  · exact setWaiters_inv h futex _

theorem futex_wake_inv (futex count : BitVec 32) : TableInv (futexWake p futex count).1 free := by
  unfold futexWake
  split
  · exact h
  · exact tableInv_congr h rfl rfl rfl rfl fun _ => ⟨rfl, rfl⟩

end

/-- A slot's word passes the two tests of `sys_futex`. -/
def Accepted (p : Process) (ecx : BitVec 32) : Prop :=
  2 < ecx.toNat ∧ ecx.toNat < htabLen ∧ p.magicAt (p.htab ecx.toNat) = futx ∧ p.handleAt (p.htab ecx.toNat) = ecx

theorem sys_futex_reject (h : ¬ Accepted p ecx) (call : FutexCall) : sysFutex p call ecx = p.reject := by
  have hlow : ecx ≤ stderrFileno ↔ ecx.toNat ≤ 2 := by rw [BitVec.le_def]; rfl
  unfold sysFutex
  by_cases h1 : ecx ≤ stderrFileno
  · rw [if_pos h1]
  by_cases h2 : ecx.toNat ≥ htabLen
  · rw [if_neg h1, if_pos h2]
  by_cases h3 : p.magicAt (p.htab ecx.toNat) ≠ futx
  · rw [if_neg h1, if_neg h2, if_pos h3]
  by_cases h4 : p.handleAt (p.htab ecx.toNat) ≠ ecx
  · rw [if_neg h1, if_neg h2, if_neg h3, if_pos h4]
  rw [hlow] at h1
  exact absurd ⟨by omega, by omega, not_not.mp h3, not_not.mp h4⟩ h

theorem sys_futex_accept (h : Accepted p ecx) (call : FutexCall) :
    sysFutex p call ecx = match call with
      | .destroy => ((destroyFutex p (p.htab ecx.toNat)).1,
          ⟨(destroyFutex p (p.htab ecx.toNat)).2, some (p.htab ecx.toNat)⟩)
      | .wait slot control timeout =>
          ((futexWait p (p.htab ecx.toNat) slot control timeout).1,
            ⟨(futexWait p (p.htab ecx.toNat) slot control timeout).2, some (p.htab ecx.toNat)⟩)
      | .wake count => ((futexWake p (p.htab ecx.toNat) count).1,
          ⟨(futexWake p (p.htab ecx.toNat) count).2, some (p.htab ecx.toNat)⟩)
      | .reserved => p.reject := by
  obtain ⟨h1, h2, h3, h4⟩ := h
  have hlow : ecx ≤ stderrFileno ↔ ecx.toNat ≤ 2 := by rw [BitVec.le_def]; rfl
  cases call <;>
    exact (if_neg (by rw [hlow]; omega)).trans <| (if_neg (by omega)).trans <|
      (if_neg (not_not.mpr h3)).trans (if_neg (not_not.mpr h4))

/-- A live futex is reached, or the answer is -1 and nothing changes. -/
def Sound (p : Process) (call : FutexCall) (ecx : BitVec 32) : Prop :=
  match (sysFutex p call ecx).2.target with
  | some a => p.live a = some .futex
  | none => sysFutex p call ecx = p.reject

/-- The slot is free, and the process has written a futex header where its index leads. Or its object is of another kind
and has the magic word. -/
def Forged (p : Process) (ecx : BitVec 32) : Prop :=
  2 < ecx.toNat ∧ ecx.toNat < htabLen ∧
    (((p.htab ecx.toNat).toNat < userTop ∧ readU32 p.mem ((p.htab ecx.toNat).toNat + 8) = futx ∧
        readU32 p.mem ((p.htab ecx.toNat).toNat + 12) = ecx) ∨
      (p.live (p.htab ecx.toNat) = some .object ∧ (p.objs (p.htab ecx.toNat)).magic = futx))

instance (p : Process) (ecx : BitVec 32) : Decidable (Forged p ecx) := by
  unfold Forged
  infer_instance

theorem accepted_iff (h : TableInv p free) (ecx : BitVec 32) :
    Accepted p ecx ↔
      (2 < ecx.toNat ∧ ecx.toNat < htabLen ∧ p.live (p.htab ecx.toNat) = some .futex) ∨ Forged p ecx := by
  unfold Accepted Forged
  by_cases hrange : 2 < ecx.toNat ∧ ecx.toNat < htabLen
  swap
  · tauto
  obtain ⟨h2, hlen⟩ := hrange
  simp only [h2, hlen, true_and]
  by_cases hfree : ecx.toNat ∈ free
  · -- A link: the two words come from user memory, and nothing lives there.
    have hlow := h.freeSlot _ hfree
    have hdead : ∀ k, p.live (p.htab ecx.toNat) ≠ some k := by
      intro k hk
      exact absurd (h.liveObj _ k hk).1 (Nat.not_le.mpr hlow)
    unfold Process.magicAt Process.handleAt
    simp [hlow, hdead]
  -- An object that knows its slot.
  obtain ⟨⟨k, hk⟩, hback⟩ := h.usedSlot _ h2 hlen hfree
  have hhigh := (h.liveObj _ k hk).1
  have hhandle : (p.objs (p.htab ecx.toNat)).handle = ecx := BitVec.eq_of_toNat_eq hback
  unfold Process.magicAt Process.handleAt
  simp only [Nat.not_lt.mpr hhigh, if_false, hhandle, and_true, false_and, false_or, hk, Option.some.injEq]
  cases k with
  | object => simp
  | futex => simp [h.futexMagic _ hk]

theorem not_futex_of_forged (h : TableInv p free) (hf : Forged p ecx) : p.live (p.htab ecx.toNat) ≠ some .futex := by
  obtain ⟨-, -, ⟨hlow, -⟩ | ⟨hobj, -⟩⟩ := hf
  · intro hk
    exact absurd (h.liveObj _ _ hk).1 (Nat.not_le.mpr hlow)
  · rw [hobj]
    simp

theorem sound_iff (h : TableInv p free) {call : FutexCall} (hcall : call ≠ .reserved) (ecx : BitVec 32) :
    Sound p call ecx ↔ ¬ Forged p ecx := by
  unfold Sound
  by_cases hacc : Accepted p ecx
  · have htarget : (sysFutex p call ecx).2.target = some (p.htab ecx.toNat) := by
      rw [sys_futex_accept hacc]
      cases call with
      | reserved => exact absurd rfl hcall
      | _ => rfl
    rw [htarget]
    constructor
    · intro hlive hf
      exact not_futex_of_forged h hf hlive
    · intro hf
      rcases (accepted_iff h ecx).mp hacc with hlive | hf'
      · exact hlive.2.2
      · exact absurd hf' hf
  · have hf : ¬ Forged p ecx := fun hf => hacc ((accepted_iff h ecx).mpr (.inr hf))
    rw [sys_futex_reject hacc]
    simp [Process.reject, hf]

/-! ## Runs -/

inductive Op
  | createObject (blk : BitVec 32) (junk : Obj)
  | destroyObject (obj : BitVec 32)
  | futexInit (ptr blk : BitVec 32) (junk : Obj)
  | destroyFutex (futex : BitVec 32)
  | request (call : FutexCall) (ecx : BitVec 32)
  | resume (futex slot control : BitVec 32) (timedOut : Bool)
  | store (mem : Nat → BitVec 8)

def step (p : Process) : Op → Process × Reply
  | .createObject blk junk => ((createObject p blk junk).1, ⟨.ret (createObject p blk junk).2, none⟩)
  | .destroyObject obj => ((destroyObject p obj).1, ⟨.ret (destroyObject p obj).2, none⟩)
  | .futexInit ptr blk junk => ((sysFutexInit p ptr blk junk).1, ⟨.ret (sysFutexInit p ptr blk junk).2, none⟩)
  | .destroyFutex futex => ((destroyFutex p futex).1, ⟨(destroyFutex p futex).2, some futex⟩)
  | .request call ecx => sysFutex p call ecx
  | .resume futex slot control timedOut =>
    ((futexResume p futex slot control timedOut).1, ⟨(futexResume p futex slot control timedOut).2, some futex⟩)
  | .store mem => ({ p with mem }, ⟨.ret 0, none⟩)

def StepOk (p : Process) : Op → Prop
  | .createObject blk _ => MallocOk p blk
  | .destroyObject obj => p.live obj = some .object
  | .futexInit _ blk _ => MallocOk p blk
  | .destroyFutex futex => p.live futex = some .futex
  | .request _ ecx => ¬ Forged p ecx
  | .resume .. => True
  | .store _ => True

theorem sysFutexInit_fst (p : Process) (ptr blk : BitVec 32) (junk : Obj) :
    (sysFutexInit p ptr blk junk).1 = (createFutex p ptr blk junk).1 := by
  unfold sysFutexInit
  simp only
  split_ifs <;> rfl

theorem step_tableInv (p : Process) (op : Op) (hp : ∃ free, TableInv p free) (hok : StepOk p op) :
    ∃ free, TableInv (step p op).1 free := by
  obtain ⟨free, h⟩ := hp
  cases op with
  | createObject blk junk =>
    by_cases hblk : blk = 0
    · simp only [step, hblk, create_object_fail]
      exact ⟨free, h⟩
    cases free with
    | nil =>
      simp only [step, create_object_full h.count]
      exact ⟨[], h⟩
    | cons i free => exact ⟨free, create_object_inv h hblk hok junk⟩
  | destroyObject obj => exact ⟨_, release_inv h hok⟩
  | futexInit ptr blk junk =>
    simp only [step, sysFutexInit_fst]
    exact create_futex_inv h ptr hok junk
  | destroyFutex futex => exact destroy_futex_inv h hok
  | request call ecx =>
    simp only [step]
    by_cases hacc : Accepted p ecx
    · rw [sys_futex_accept hacc]
      cases call with
      | destroy =>
        have hlive := ((accepted_iff h ecx).mp hacc).resolve_right hok
        exact destroy_futex_inv h hlive.2.2
      | wait slot control timeout => exact ⟨free, futex_wait_inv h _ slot control timeout⟩
      | wake count => exact ⟨free, futex_wake_inv h _ count⟩
      | reserved => exact ⟨free, h⟩
    · rw [sys_futex_reject hacc]
      exact ⟨free, h⟩
  | resume futex slot control timedOut => exact ⟨free, futex_resume_inv h futex slot control timedOut⟩
  | store mem => exact ⟨free, tableInv_congr h rfl rfl rfl rfl fun _ => ⟨rfl, rfl⟩⟩

/-- **Futex requests reach live futexes only, unless a header is forged.** -/
theorem futex_requests_sound (objs : BitVec 32 → Obj) (mem : Nat → BitVec 8)
    (state : BitVec 32 → BitVec 32) (ops : List Op)
    (hops : Allowed step StepOk (initHandles objs mem state) ops) :
    (∀ c ∈ trace step (initHandles objs mem state) ops, ∀ call ecx,
      c.input = .request call ecx → call ≠ .reserved → Sound c.before call ecx) ∧
    ∀ call ecx, call ≠ .reserved → (Sound (final step (initHandles objs mem state) ops) call ecx ↔
        ¬ Forged (final step (initHandles objs mem state) ops) ecx) := by
  have hinit : ∃ free, TableInv (initHandles objs mem state) free := ⟨_, initHandles_inv objs mem state⟩
  constructor
  · intro c hc call ecx hin hcall
    obtain ⟨⟨free, h⟩, hok, -⟩ := trace_inv step_tableInv hinit hops c hc
    rw [hin] at hok
    exact (sound_iff h hcall ecx).mpr hok
  · intro call ecx hcall
    obtain ⟨free, h⟩ := final_inv step_tableInv hinit hops
    exact sound_iff h hcall ecx

def blankObj : Obj := ⟨0, 0, 0, [], 0, 0⟩

def blankProcess : Process := initHandles (fun _ => blankObj) (fun _ => 0) (fun _ => 0)

theorem futex_requests_sound_wake :
    (sysFutex (final step blankProcess [.futexInit 0x1000 0x80001000 blankObj]) (.wake 1) 3).2 =
      ⟨.ret 0, some 0x80001000⟩ ∧
    Sound (final step blankProcess [.futexInit 0x1000 0x80001000 blankObj]) (.wake 1) 3 := by
  refine ⟨by decide +kernel, ?_⟩
  have hops : Allowed step StepOk blankProcess [.futexInit 0x1000 0x80001000 blankObj] :=
    ⟨fun _ => ⟨by decide, rfl⟩, trivial⟩
  exact ((futex_requests_sound _ _ _ _ hops).2 (.wake 1) 3 (by decide)).mpr (by decide +kernel)

def forgedMem : Nat → BitVec 8 := writeU32 (writeU32 (writeU32 (fun _ => 0) 12 futx) 16 3) 24 24

/-- Nobody was given handle 3. The destroy request pushes its slot, which is free already. -/
theorem forged_destroy_accepted :
    (step (initHandles (fun _ => blankObj) forgedMem (fun _ => 0)) (.request .destroy 3)).2 = ⟨.ret 0, some 4⟩ ∧
    (initHandles (fun _ => blankObj) forgedMem (fun _ => 0)).live 4 = none ∧
    (step (initHandles (fun _ => blankObj) forgedMem (fun _ => 0)) (.request .destroy 3)).1.htFree = 1004 ∧
    (step (initHandles (fun _ => blankObj) forgedMem (fun _ => 0)) (.request .destroy 3)).1.htab 3 = 3 := by
  decide +kernel

end Kolibri.Posix
