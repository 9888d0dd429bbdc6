import Kolibri.UserHeap.Realloc
import Kolibri.Lib.Run

/-!
# Runs of a process on its heap

Any sequence of heap calls and page faults of one process, from `init_heap` on.
-/

namespace Kolibri.UserHeap

open Tiling Run Bitmap Paging Function

inductive Op
  | userAlloc (size : BitVec 32)
  | userAllocAt (address size : BitVec 32)
  | userFree (base : BitVec 32)
  | userRealloc (eax ebx : BitVec 32)
  | pageFault (page : Nat)

def outcome (h : Heap) : Option (Heap × BitVec 32) → Heap × Option (BitVec 32)
  | none => (h, none)
  | some (h', eax) => (h', some eax)

def step (pteMask : BitVec 32) (h : Heap) : Op → Heap × Option (BitVec 32)
  | .userAlloc size => outcome h (userAlloc h size)
  | .userAllocAt address size => outcome h (userAllocAt h address size)
  | .userFree base => outcome h (userFree h base)
  | .userRealloc eax ebx => outcome h (userRealloc h eax ebx)
  | .pageFault page => (pageFault pteMask h page, some 0)

def Op.requested : Op → Option (BitVec 32)
  | .userAlloc size => some size
  | .userAllocAt _ size => some size
  | .userRealloc _ ebx => some ebx
  | _ => none

def InHeap (h : Heap) (ptr : BitVec 32) : Prop :=
  h.heapBase / 4096 < ptr.toNat / 4096 ∧ ptr.toNat / 4096 ≤ topPage
  deriving Decidable

def Holds (h : Heap) (ptr size : BitVec 32) : Prop :=
  ∃ l n, Tiled AnyEntry h l ∧ Live (h.heapBase / 4096) l (ptr.toNat / 4096 - 1) .used n ∧ size.toNat ≤ 4096 * (n - 1)

/-- The call returns, and a new block is in the heap and large enough. -/
structure Sound (op : Op) (out : Option (BitVec 32)) (h' : Heap) : Prop where
  returns : out ≠ none
  tiled : ∃ l, Tiled AnyEntry h' l
  holds : ∀ size ptr, op.requested = some size → out = some ptr → ptr ≠ 0 → InHeap h' ptr ∧ Holds h' ptr size

/-- Sizes do not wrap, no block at a fixed place is empty, and pointers are into the heap. -/
def Fits (h : Heap) : Op → Prop
  | .userAlloc size => size.toNat ≤ 0xFFFFE000
  | .userAllocAt _ size => size ≠ 0
  | .userFree base => base = 0 ∨ InHeap h base
  | .userRealloc eax ebx => ebx.toNat ≤ 0xFFFFE000 ∧ (eax = 0 ∨ InHeap h eax)
  | .pageFault page => page < topPage

instance (h : Heap) : (op : Op) → Decidable (Fits h op)
  | .userAlloc _ => inferInstanceAs (Decidable (_ ≤ _))
  | .userAllocAt _ _ => inferInstanceAs (Decidable (_ ≠ _))
  | .userFree _ => inferInstanceAs (Decidable (_ ∨ _))
  | .userRealloc _ _ => inferInstanceAs (Decidable (_ ∧ _))
  | .pageFault _ => inferInstanceAs (Decidable (_ < _))

/-! ## What every call keeps -/

def Quiet (_ : Kind) (entry : Nat) : Prop := entry &&& memBlockUsed = 0

/-- The entry of the page at 2 GiB stops the walk of `user_normalize`. -/
def HeapInv (h : Heap) : Prop := (∃ l, Tiled Quiet h l) ∧ h.tabs topPage &&& memBlockUsed = 0

theorem quiet_free : Quiet .free 0 := rfl

theorem quiet_reserved : Quiet .used memBlockReserved := rfl

variable {h h' : Heap} {l l' : List (Kind × Nat)}

theorem Tiled.any (ht : Tiled Quiet h l) : Tiled AnyEntry h l :=
  ⟨ht.top, ht.aligned, tiles_mono ht.row fun _ _ _ _ hblock => ⟨hblock.1, fun _ _ _ => trivial⟩⟩

theorem heapInv_changed {gone : Nat → Prop} {new : Nat → Nat → Prop} (hc : Changed Quiet h l gone new h' l')
    (hguard : h.tabs topPage &&& memBlockUsed = 0) : HeapInv h' := by
  refine ⟨⟨l', hc.tiled⟩, ?_⟩
  rw [hc.outside topPage (.inr (Nat.le_refl _))]
  exact hguard

theorem sound_new {op : Op} {gone : Nat → Prop} {new : Nat → Nat → Prop} {x n : Nat}
    (hc : Changed Quiet h l gone new h' l') (hnew : new x n)
    (hsize : ∀ size, op.requested = some size → size.toNat ≤ 4096 * (n - 1)) :
    Sound op (some (BitVec.ofNat 32 (4096 * (x + 1)))) h' := by
  have hx : Live (h'.heapBase / 4096) l' x .used n := by
    rw [hc.heapBase]
    exact (hc.live x _ _).mpr (.inr ⟨rfl, hnew⟩)
  obtain ⟨hpos, -, hlo, hend⟩ := hc.tiled.occurs hx.1
  obtain ⟨hptr, -⟩ := block_pointer (by omega : x < 0x80000)
  refine ⟨by simp, ⟨l', hc.tiled.any⟩, ?_⟩
  intro size ptr hreq hout _
  obtain rfl := Option.some.inj hout
  unfold InHeap Holds topPage
  rw [hptr]
  exact ⟨⟨by omega, by omega⟩, l', n, hc.tiled.any, hx, hsize size hreq⟩

theorem sound_none {op : Op} {out : BitVec 32} (ht : Tiled Quiet h' l') (hout : op.requested = none ∨ out = 0) :
    Sound op (some out) h' := by
  refine ⟨by simp, ⟨l', ht.any⟩, ?_⟩
  intro size ptr hreq hret hne
  obtain rfl := Option.some.inj hret
  rcases hout with hnone | hzero
  · rw [hnone] at hreq
    cases hreq
  · exact absurd hzero hne

theorem alloc_sound {op : Op} {size : BitVec 32} {r : Option (Heap × BitVec 32)} (hinv : HeapInv h)
    (hop : op.requested = some size)
    (hspec : ∀ l, Tiled Quiet h l → r = some (h, 0) ∨ Allocated Quiet h l size r) :
    HeapInv (outcome h r).1 ∧ Sound op (outcome h r).2 (outcome h r).1 := by
  obtain ⟨⟨l, ht⟩, hguard⟩ := hinv
  rcases hspec l ht with rfl | ⟨x, h', l', rfl, hnew, -⟩
  · exact ⟨⟨⟨l, ht⟩, hguard⟩, sound_none ht (.inr rfl)⟩
  · refine ⟨heapInv_changed hnew.changed hguard, sound_new hnew.changed ⟨rfl, rfl⟩ fun size' hsize => ?_⟩
    obtain rfl := Option.some.inj (hop.symm.trans hsize)
    unfold pagesFor
    omega

theorem free_sound {base : BitVec 32} (hinv : HeapInv h) (hbase : base = 0 ∨ InHeap h base) :
    HeapInv (outcome h (userFree h base)).1 ∧
      Sound (.userFree base) (outcome h (userFree h base)).2 (outcome h (userFree h base)).1 := by
  obtain ⟨⟨l, ht⟩, hguard⟩ := hinv
  have hsame : ∀ r, userFree h base = some (h, r) → HeapInv (outcome h (userFree h base)).1 ∧
      Sound (.userFree base) (outcome h (userFree h base)).2 (outcome h (userFree h base)).1 := by
    intro r hr
    rw [hr]
    exact ⟨⟨⟨l, ht⟩, hguard⟩, sound_none ht (.inl rfl)⟩
  rcases hbase with rfl | ⟨hlo, hhi⟩
  · exact hsame 0 (if_pos rfl)
  rcases user_free_spec ht quiet_free (fun _ _ => id) hguard
    (by omega : base.toNat / 4096 = base.toNat / 4096 - 1 + 1) (by omega) (by omega) with
    ⟨hnone, -⟩ | ⟨n, h', l', -, hcall, hchanged, -⟩
  · exact hsame 1 hnone
  · rw [hcall]
    exact ⟨heapInv_changed hchanged hguard, sound_none hchanged.tiled (.inl rfl)⟩

theorem realloc_sound {eax ebx : BitVec 32} (hinv : HeapInv h) (hebx : ebx.toNat ≤ 0xFFFFE000)
    (heax : eax = 0 ∨ InHeap h eax) :
    HeapInv (outcome h (userRealloc h eax ebx)).1 ∧
      Sound (.userRealloc eax ebx) (outcome h (userRealloc h eax ebx)).2 (outcome h (userRealloc h eax ebx)).1 := by
  rcases heax with rfl | ⟨hlo, hhi⟩
  · refine alloc_sound hinv rfl fun l ht => ?_
    rw [show userRealloc h 0 ebx = userAlloc h ebx from if_pos rfl]
    exact (user_alloc_spec ht quiet_reserved hebx).imp_left And.left
  obtain ⟨⟨l, ht⟩, hguard⟩ := hinv
  rcases user_realloc_outcomes ht quiet_free quiet_reserved (fun _ _ => id) hguard
    (by omega : eax.toNat / 4096 = eax.toNat / 4096 - 1 + 1) (by omega) (by omega) hebx with
    hsame | ⟨p, -, ⟨-, h', l', hcall, hchanged, -⟩ | ⟨x, h', l', hcall, hnew⟩⟩
  · rw [hsame]
    exact ⟨⟨⟨l, ht⟩, hguard⟩, sound_none ht (.inr rfl)⟩
  · rw [hcall]
    exact ⟨heapInv_changed hchanged hguard, sound_none hchanged.tiled (.inr rfl)⟩
  · rw [hcall]
    refine ⟨heapInv_changed hnew.changed hguard, sound_new hnew.changed ⟨rfl, rfl⟩ fun size hsize => ?_⟩
    obtain rfl := Option.some.inj hsize
    unfold payloadPages
    omega

theorem page_fault_sound (pat pge : Bool) {page : Nat} (hinv : HeapInv h) (hpage : page < topPage) :
    HeapInv (pageFault (pteValidMask pat pge) h page) ∧
      Sound (.pageFault page) (some 0) (pageFault (pteValidMask pat pge) h page) := by
  obtain ⟨⟨l, ht⟩, hguard⟩ := hinv
  rcases page_fault_spec pat pge h page with ⟨b, hsame, -⟩ | ⟨-, hres, p, -, -, hnew⟩
  · rw [hsame]
    have ht' : Tiled Quiet { h with bitmap := b } l := ⟨ht.top, ht.aligned, ht.row⟩
    exact ⟨⟨⟨l, ht'⟩, hguard⟩, sound_none ht' (.inr rfl)⟩
  rw [hnew]
  have ht' : Tiled Quiet { h with tabs := update h.tabs page (4096 * p + 7), bitmap := (allocPage h.bitmap).1 } l := by
    refine tiled_rewrite ht (fun i => ?_) ⟨rfl, rfl⟩
    by_cases hi : i = page
    · subst hi
      refine .inr ⟨reserved_ne_hdr hres, fun k _ => ?_⟩
      dsimp only
      rw [update_self]
      exact (page_entry_bits p).2
    · exact .inl (update_of_ne hi _ _)
  refine ⟨⟨⟨l, ht'⟩, ?_⟩, sound_none ht' (.inr rfl)⟩
  dsimp only
  rw [update_of_ne (by omega)]
  exact hguard

theorem step_sound (pat pge : Bool) (h : Heap) (op : Op) (hinv : HeapInv h) (hop : Fits h op) :
    HeapInv (step (pteValidMask pat pge) h op).1 ∧
      Sound op (step (pteValidMask pat pge) h op).2 (step (pteValidMask pat pge) h op).1 := by
  cases op with
  | userAlloc size =>
    exact alloc_sound hinv rfl fun l ht => (user_alloc_spec ht quiet_reserved hop).imp_left And.left
  | userAllocAt address size =>
    exact alloc_sound hinv rfl fun l ht => user_alloc_at_spec ht quiet_reserved address hop
  | userFree base => exact free_sound hinv hop
  | userRealloc eax ebx => exact realloc_sound hinv hop.1 hop.2
  | pageFault page => exact page_fault_sound pat pge hinv hop

/-! ## From `init_heap` on -/

theorem init_heap_inv {h : Heap} (htop : h.heapTop = 0) (hmem : h.memUsed.toNat ≤ 0x7FFFF000)
    (hfresh : ∀ i, (h.memUsed.toNat + 4095) / 4096 < i → i ≤ topPage → h.tabs i &&& memBlockUsed = 0) :
    HeapInv (initHeap h).1 := by
  obtain ⟨hlt, heq⟩ := init_heap_spec htop hmem
  refine ⟨⟨_, init_heap_tiled htop hmem fun i hlo hhi => hfresh i hlo (Nat.le_of_lt hhi)⟩, ?_⟩
  rw [heq]
  dsimp only
  rw [update_of_ne (by unfold topPage; omega)]
  exact hfresh topPage (by show imagePages h < topPage; unfold topPage; omega) (Nat.le_refl _)

/-- The heap stays a row of blocks, and each is as large as the process was told. -/
theorem user_heap_stays_tiled (pat pge : Bool) (h : Heap) (ops : List Op) (htop : h.heapTop = 0)
    (hmem : h.memUsed.toNat ≤ 0x7FFFF000)
    (hfresh : ∀ i, (h.memUsed.toNat + 4095) / 4096 < i → i ≤ topPage → h.tabs i &&& memBlockUsed = 0)
    (hfits : Allowed (step (pteValidMask pat pge)) Fits (initHeap h).1 ops) :
    ∀ c ∈ trace (step (pteValidMask pat pge)) (initHeap h).1 ops, Sound c.input c.output c.after := by
  intro c hc
  obtain ⟨hinv, hop, hstep⟩ := trace_inv (fun h op hinv hop => (step_sound pat pge h op hinv hop).1)
    (init_heap_inv htop hmem hfresh) hfits c hc
  have hsound := (step_sound pat pge c.before c.input hinv hop).2
  rw [hstep] at hsound
  exact hsound

def freshProcess : Heap where
  tabs _ := 0
  heapBase := 0
  heapTop := 0
  memUsed := 0x1000
  bitmap := { map := fun _ => 0, pageStart := 0, pageEnd := 0, pagesFree := 0 }

theorem user_heap_stays_tiled_small :
    (trace (step (pteValidMask false false)) (initHeap freshProcess).1
      [.userAlloc 0x1000, .userRealloc 0x2000 0x3000, .userAllocAt 0x10000 1, .userFree 0x2000]).map (·.output) =
      [some 0x2000, some 0x2000, some 0x10000, some 1] ∧
    ∀ c ∈ trace (step (pteValidMask false false)) (initHeap freshProcess).1
      [.userAlloc 0x1000, .userRealloc 0x2000 0x3000, .userAllocAt 0x10000 1, .userFree 0x2000],
      Sound c.input c.output c.after := by
  exact ⟨by decide +kernel, user_heap_stays_tiled false false freshProcess _ rfl (by decide)
    (fun _ _ _ => Nat.zero_and _) (by decide +kernel)⟩

/-- A size of 4 GiB wraps. An empty block at a fixed place loses its header to the free block behind it. -/
theorem user_heap_calls_break :
    (∃ h', userAlloc (initHeap freshProcess).1 0xFFFFFFFF = some (h', 0x2000) ∧ h'.tabs 1 = hdr .used 1 ∧
      ¬ Holds h' 0x2000 0xFFFFFFFF) ∧
    ∃ h', userAllocAt (initHeap freshProcess).1 0x2000 0 = some (h', 0x2000) ∧ ¬ ∃ l, Tiled AnyEntry h' l := by
  constructor
  · have heval : (userAlloc (initHeap freshProcess).1 0xFFFFFFFF).map
        (fun r => (r.2, r.1.heapBase, r.1.tabs 1)) = some (0x2000, 0x1000, hdr .used 1) := by decide +kernel
    obtain ⟨⟨h', r⟩, hcall, hr⟩ := Option.map_eq_some_iff.mp heval
    simp only [Prod.mk.injEq] at hr
    obtain ⟨rfl, hbase, hhead⟩ := hr
    refine ⟨h', hcall, hhead, ?_⟩
    rintro ⟨l, n, ht, hlive, hsize⟩
    have hblock : h'.tabs 1 = hdr .used n := (ht.occurs hlive.1).2.1.1
    have hn : n = 1 := by rw [← hdr_div .used n, ← hblock, hhead, hdr_div]
    subst hn
    exact absurd hsize (by decide)
  have heval : (userAllocAt (initHeap freshProcess).1 0x2000 0).map
      (fun r => (r.2, r.1.heapBase, r.1.tabs 1, r.1.tabs 0x7FFFF)) = some (0x2000, 0x1000, hdr .free 0x7FFFE, 0) := by
    decide +kernel
  obtain ⟨⟨h', r⟩, hcall, hr⟩ := Option.map_eq_some_iff.mp heval
  simp only [Prod.mk.injEq] at hr
  obtain ⟨rfl, hbase, hhead, hlast⟩ := hr
  refine ⟨h', hcall, ?_⟩
  rintro ⟨l, ht⟩
  have hrow := ht.row
  rw [hbase] at hrow
  -- The first block ends one page below 2 GiB, and 0 is no header.
  rcases l with _ | ⟨⟨k, n⟩, l⟩
  · have hend : 0x1000 / 4096 = topPage := hrow
    exact absurd hend (by decide)
  have hn : n = 0x7FFFE := by rw [← hdr_div k n, ← hrow.2.1.1, ← hdr_div .free 0x7FFFE, ← hhead]
  subst hn
  rcases l with _ | ⟨⟨k', n'⟩, l⟩
  · have hend : 0x1000 / 4096 + 0x7FFFE = topPage := hrow.2.2
    exact absurd hend (by decide)
  have hzero : hdr k' n' = 0 := by rw [← hrow.2.2.2.1.1]; exact hlast
  have hpos := hrow.2.2.1
  unfold hdr at hzero
  omega

end Kolibri.UserHeap
