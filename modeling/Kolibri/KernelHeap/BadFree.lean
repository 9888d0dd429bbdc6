import Kolibri.KernelHeap.KernelAlloc
import Kolibri.Lib.Memory
import Kolibri.UserHeap.Free

/-! # `kernel_free` at an address that no block has

`md.find_used` answers with the null descriptor, and its flags, base and size come from the first bytes of
the program's own memory. `Kernel.tabs` is the memory from `page_tabs` on, the frame buffer behind the tables
included.
-/

namespace Kolibri.KernelHeap

open Memory Bitmap Function
open UserHeap (memBlockUsed Present pageOf release_entry_gave)

def tableEntries : Nat := 2 ^ 20

/-- `loop` counts down before it tests. -/
def loopRounds (ecx : Nat) : Nat := if ecx = 0 then 2 ^ 32 else ecx

/-- The loop of `release_pages`. Addresses wrap after `2 ^ 30` words. -/
def releasePages : Nat → Kernel → Nat → Kernel
  | 0, k, _ => k
  | ecx + 1, k, esi =>
    let eax := k.tabs (esi % 2 ^ 30)
    let k := { k with tabs := update k.tabs (esi % 2 ^ 30) 0 }
    let k :=
      if Present eax then
        { k with bitmap := (releaseBitmapPageModeB k.bitmap (BitVec.ofNat 32 eax >>> 12)).1 }
      else k
    releasePages ecx k (esi + 1)

/-- A field of a descriptor. That of the null descriptor lies in the memory of the program. -/
def field (user : Mem) (offset : BitVec 32) (f : Node → Nat) (esi : Node) : Nat :=
  if esi = .null then (load32 user offset).toNat else f esi

/-- The result is -1 or 0. `none` is a call that does not return. -/
def kernelFree (user : Mem) (k : Kernel) (base : BitVec 32) : Option (Kernel × BitVec 32) :=
  (findUsed k.space base.toNat).bind fun esi =>
    if field user 24 k.space.flags esi ≠ memBlockUsed then some (k, 0)
    else
      let eax := field user 16 k.space.base esi
      let ecx := field user 20 k.space.size esi / 4096
      let k := releasePages (loopRounds ecx) k (eax / 4096)
      (freeKernelSpace k.space base).map fun (space, eax) => ({ k with space }, eax)

/-! ## The walk -/

def Walked (esi n i : Nat) : Prop := ∃ j < n, (esi + j) % 2 ^ 30 = i

theorem walked_succ (esi n i : Nat) : Walked esi (n + 1) i ↔ i = esi % 2 ^ 30 ∨ Walked (esi + 1) n i := by
  constructor
  · rintro ⟨j, hj, rfl⟩
    cases j with
    | zero => exact .inl rfl
    | succ j => exact .inr ⟨j, by omega, by congr 1; omega⟩
  · rintro (rfl | ⟨j, hj, rfl⟩)
    · exact ⟨0, by omega, rfl⟩
    · exact ⟨j + 1, by omega, by congr 1; omega⟩

/-- Page `q` is that of a walked word that says present. -/
def Releases (k : Kernel) (esi n q : Nat) : Prop := ∃ i, Walked esi n i ∧ Present (k.tabs i) ∧ pageOf (k.tabs i) = q

theorem release_pages_succ (ecx : Nat) (k : Kernel) (esi : Nat) :
    releasePages (ecx + 1) k esi = releasePages ecx
        { space := k.space
          bitmap := if Present (k.tabs (esi % 2 ^ 30)) then
              (releaseBitmapPageModeB k.bitmap (BitVec.ofNat 32 (k.tabs (esi % 2 ^ 30)) >>> 12)).1
            else k.bitmap
          tabs := update k.tabs (esi % 2 ^ 30) 0 }
        (esi + 1) := by
  rw [releasePages]
  congr 1
  split_ifs <;> rfl

theorem release_pages_spec (n : Nat) (k : Kernel) (esi : Nat) :
    (releasePages n k esi).space = k.space ∧ (∀ i, Walked esi n i → (releasePages n k esi).tabs i = 0) ∧
      (∀ i, ¬ Walked esi n i → (releasePages n k esi).tabs i = k.tabs i) ∧
      Gave k.bitmap (Releases k esi n) (releasePages n k esi).bitmap := by
  induction n generalizing k esi with
  | zero =>
    refine ⟨rfl, fun i hi => ?_, fun i _ => rfl, (Gave.refl _).congr fun q => ?_⟩
    · obtain ⟨j, hj, -⟩ := hi
      omega
    · refine iff_false_intro ?_
      rintro ⟨i, ⟨j, hj, -⟩, -⟩
      omega
  | succ n ih =>
    rw [release_pages_succ]
    have hone := release_entry_gave k.bitmap (k.tabs (esi % 2 ^ 30))
    generalize hk : Kernel.mk _ _ _ = k1
    obtain ⟨hspace, hclear, hkeep, hgave⟩ := ih k1 (esi + 1)
    have htabs : k1.tabs = update k.tabs (esi % 2 ^ 30) 0 := by rw [← hk]
    have hbitmap := congrArg Kernel.bitmap hk
    dsimp only at hbitmap
    rw [hbitmap] at hone
    refine ⟨by rw [hspace, ← hk], fun i hi => ?_, fun i hi => ?_, hone.trans hgave fun q => ?_⟩
    · by_cases hlater : Walked (esi + 1) n i
      · exact hclear i hlater
      · have hfirst := ((walked_succ esi n i).mp hi).resolve_right hlater
        rw [hkeep i hlater, htabs, hfirst, update_self]
    · rw [walked_succ, not_or] at hi
      rw [hkeep i hi.2, htabs, update_of_ne hi.1]
    · -- A word that the walk meets again is 0 by then.
      constructor
      · rintro ⟨i, hi, hpresent, hpage⟩
        by_cases hfirst : i = esi % 2 ^ 30
        · subst hfirst
          exact .inl ⟨hpresent, hpage⟩
        · refine .inr ⟨i, ((walked_succ esi n i).mp hi).resolve_left hfirst, ?_⟩
          rw [htabs, update_of_ne hfirst]
          exact ⟨hpresent, hpage⟩
      rintro (⟨hpresent, hpage⟩ | ⟨i, hi, hpresent, hpage⟩)
      · exact ⟨_, (walked_succ esi n _).mpr (.inl rfl), hpresent, hpage⟩
      by_cases hfirst : i = esi % 2 ^ 30
      · rw [htabs, hfirst, update_self] at hpresent
        exact absurd rfl hpresent
      · rw [htabs, update_of_ne hfirst] at hpresent hpage
        exact ⟨i, (walked_succ esi n i).mpr (.inr hi), hpresent, hpage⟩

/-! ## A bad address -/

def NothingMapped (k : Kernel) (esi n : Nat) : Prop :=
  ∀ i, Walked esi n i →
    (i < tableEntries → k.tabs i = 0) ∧ (Present (k.tabs i) → k.bitmap.free (pageOf (k.tabs i)) = true)

/-- What stands in the program's memory where a descriptor at address 0 would be. -/
structure Stray where
  base : BitVec 32
  size : BitVec 32
  flags : BitVec 32
  deriving DecidableEq

def stray (user : Mem) : Stray := ⟨load32 user 16, load32 user 20, load32 user 24⟩

def Stray.Harmless (d : Stray) (k : Kernel) : Prop :=
  d.flags.toNat ≠ memBlockUsed ∨ NothingMapped k (d.base.toNat / 4096) (loopRounds (d.size.toNat / 4096))

def Unharmed (k k' : Kernel) : Prop :=
  (∀ i, i < tableEntries → k'.tabs i = k.tabs i) ∧ (∀ q, k'.bitmap.free q = k.bitmap.free q) ∧ k'.space = k.space

variable {k : Kernel} {chain spare : List Node} {user : Mem} {base : BitVec 32}

theorem unharmed_release_iff (k : Kernel) (esi n : Nat) : Unharmed k (releasePages n k esi) ↔ NothingMapped k esi n := by
  obtain ⟨hspace, hclear, hkeep, hgave⟩ := release_pages_spec n k esi
  constructor
  · rintro ⟨htabs, hbits, -⟩ i hi
    refine ⟨fun hlt => ?_, fun hpresent => ?_⟩
    · rw [← htabs i hlt, hclear i hi]
    · rw [← hbits, hgave.free]
      exact .inr ⟨i, hi, hpresent, rfl⟩
  intro hnothing
  refine ⟨fun i hlt => ?_, fun q => ?_, hspace⟩
  · by_cases hi : Walked esi n i
    · rw [hclear i hi, (hnothing i hi).1 hlt]
    · exact hkeep i hi
  · rw [Bool.eq_iff_iff, hgave.free]
    refine ⟨fun hq => hq.elim id ?_, .inl⟩
    rintro ⟨i, hi, hpresent, rfl⟩
    exact (hnothing i hi).2 hpresent

theorem field_null_base (f : Node → Nat) : field user 16 f .null = (stray user).base.toNat := by simp [field, stray]

theorem field_null_size (f : Node → Nat) : field user 20 f .null = (stray user).size.toNat := by simp [field, stray]

theorem field_null_flags (f : Node → Nat) : field user 24 f .null = (stray user).flags.toNat := by simp [field, stray]

theorem kernel_free_bad_spec (V : Valid k.space chain spare) (hbad : ∀ s, ¬ Alloc k.space chain none base.toNat s) :
    kernelFree user k base = some
      (if (stray user).flags.toNat ≠ memBlockUsed then k
        else releasePages (loopRounds ((stray user).size.toNat / 4096)) k ((stray user).base.toNat / 4096), 0) := by
  rcases find_used_spec V base.toNat with ⟨hfind, -⟩ | ⟨x, hx, -, hu, hbase⟩
  · unfold kernelFree
    rw [hfind]
    simp only [Option.bind_some, field_null_base, field_null_size, field_null_flags]
    by_cases hflags : (stray user).flags.toNat ≠ memBlockUsed
    · rw [if_pos hflags, if_pos hflags]
    rw [if_neg hflags, if_neg hflags]
    generalize hk : releasePages _ k _ = k'
    have hspace : k'.space = k.space := by
      rw [← hk]
      exact (release_pages_spec _ _ _).1
    rcases free_kernel_space_spec V base with ⟨hfree, -⟩ | ⟨h', chain', spare', -, -, -, ⟨s, hs⟩, -⟩
    · rw [hspace, hfree, Option.map_some, ← hspace]
    · exact absurd hs (hbad s)
  · exact absurd ⟨x, hx, ⟨hu, by simp⟩, hbase, rfl⟩ (hbad (k.space.size x))

/-- The program's memory does not look like a used descriptor, or nothing is mapped where it points. -/
theorem kernel_free_bad_address_iff (user : Mem) (k : Kernel) (chain spare : List Node) (V : Valid k.space chain spare)
    (base : BitVec 32) (hbad : ∀ s, ¬ Alloc k.space chain none base.toNat s) :
    (∃ k', kernelFree user k base = some (k', 0) ∧ Unharmed k k') ↔ (stray user).Harmless k := by
  rw [kernel_free_bad_spec V hbad, Stray.Harmless, ← unharmed_release_iff]
  by_cases hflags : (stray user).flags.toNat = memBlockUsed
  · simp [hflags]
  · simp [hflags, Unharmed]

def looksUsed (base size : BitVec 32) : Mem :=
  store32 (store32 (store32 (fun _ => 0) 16 base) 20 size) 24 8

def oneEntry : Kernel where
  space := (start blankSpace 0x8000).space
  bitmap := { map := fun _ => 0, pageStart := 0, pageEnd := 0x1000, pagesFree := 0 }
  tabs := update (fun _ => 0) 0x80001 0x1003

theorem kernel_free_bad_address_zero : Valid oneEntry.space [.block 1] spareBlocks ∧
    (∀ s, ¬ Alloc oneEntry.space [.block 1] none (0#32).toNat s) ∧
    ((∃ k', kernelFree (fun _ => 0) oneEntry 0 = some (k', 0) ∧ Unharmed oneEntry k') ↔
      (stray fun _ => 0).Harmless oneEntry) :=
  have hnew := init_kernel_heap_valid blankSpace 0x8000
  ⟨hnew.1, hnew.2.1 _, kernel_free_bad_address_iff (fun _ => 0) oneEntry [.block 1] spareBlocks hnew.1 0 (hnew.2.1 _)⟩

/-- Address 0 is released. The entry of page `0x80001` becomes 0. -/
theorem kernel_free_clears_entry : ¬ ∀ (user : Mem) (k : Kernel) (chain spare : List Node), Valid k.space chain spare →
    ∀ base : BitVec 32, (∀ s, ¬ Alloc k.space chain none base.toNat s) →
      ∃ k', kernelFree user k base = some (k', 0) ∧ Unharmed k k' := by
  intro hall
  obtain ⟨V, hbad, -⟩ := init_kernel_heap_valid blankSpace 0x8000
  obtain ⟨k', hres, htabs, -⟩ := hall (looksUsed 0x80001000 0x1000) oneEntry _ _ V 0 (hbad _)
  obtain ⟨rfl, -⟩ := Prod.mk.inj (Option.some.inj hres)
  have hentry := htabs 0x80001 (by decide)
  revert hentry
  decide +kernel

end Kolibri.KernelHeap
