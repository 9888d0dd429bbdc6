import Kolibri.Shmem.Code
import Kolibri.UserHeap.Free
import Kolibri.Lib.Ownership

/-! # Who maps which page

The places that may share a page form a group: the pages of one block, or a region with all its maps.
-/

namespace Kolibri.Shmem

open Bitmap UserHeap Tiling Ownership Function

/-- Entry `i` of process `p`, or page `j` of the region at `r`. -/
inductive Place
  | user (p i : Nat)
  | kernel (r j : Nat)

inductive Group
  | block (p c : Nat)
  | region (r : Nat)

def Maps (w : World) : Place → Nat → Prop
  | .user p i, q => i < topPage ∧ Present ((w.procs p).tabs i) ∧ pageOf ((w.procs p).tabs i) = q
  | .kernel r j, q =>
    (∃ s ∈ w.shmemList, s.base = r ∧ j < s.size / 4096) ∧ Present (w.kernelTabs (r / 4096 + j)) ∧
      pageOf (w.kernelTabs (r / 4096 + j)) = q

/-- A page that is marked free is mapped nowhere: not in a heap, and not in a region. -/
def Safe (w : World) : Prop :=
  ∀ q, w.bitmap.free q = true → (∀ p i, (w.procs p).heapBase / 4096 ≤ i → i < topPage → Present ((w.procs p).tabs i) →
      pageOf ((w.procs p).tabs i) ≠ q) ∧
    ∀ r ∈ w.shmemList, ∀ j, j < r.size / 4096 → Present (w.kernelTabs (r.base / 4096 + j)) →
      pageOf (w.kernelTabs (r.base / 4096 + j)) ≠ q

def World.blockAt (w : World) (ls : Nat → List (Kind × Nat)) (p i : Nat) : Nat :=
  blockOf ((w.procs p).heapBase / 4096) (ls p) i

/-- `reg` is the region of each shared entry. -/
def groupOf (w : World) (ls : Nat → List (Kind × Nat)) (reg : Nat → Nat → Nat) : Place → Group
  | .user p i => if Shared ((w.procs p).tabs i) then .region (reg p i) else .block p (w.blockAt ls p i)
  | .kernel r _ => .region r

/-- A free block has no pages, and only blocks that can be freed have shared ones. -/
def Clean (k : Kind) (entry : Nat) : Prop :=
  entry &&& memBlockUsed = 0 ∧ (k = .free → entry = 0) ∧ (k = .fixed → ¬ Shared entry)

def Apart (b b' : Nat × Nat) : Prop := b.1 + b.2 ≤ b'.1 ∨ b'.1 + b'.2 ≤ b.1

instance : Std.Symm Apart := ⟨fun _ _ => Or.symm⟩

/-- `process` is the process of a slot. -/
structure KernelInv (process : Nat → Nat) (w : World) : Prop where
  blocks : ∀ b ∈ w.kernelBlocks, 0x80800 ≤ b.1 ∧ 0 < b.2 ∧ b.1 + b.2 ≤ 0xFDC00
  apart : w.kernelBlocks.Pairwise Apart
  regions : ∀ r ∈ w.shmemList, r.base % 4096 = 0 ∧ r.size % 4096 = 0 ∧ (r.base / 4096, r.size / 4096) ∈ w.kernelBlocks
  present : ∀ r ∈ w.shmemList, ∀ j, j < r.size / 4096 → Present (w.kernelTabs (r.base / 4096 + j))
  distinct : (w.shmemList.map (·.base)).Nodup
  parents : ∀ m ∈ w.objects, ∃ r ∈ w.shmemList, r.base = m.parent
  counts : ∀ r ∈ w.shmemList, r.refcount = w.objects.countP fun m => m.parent = r.base
  maps : ∀ m ∈ w.objects, m.base = 0 ∨
    (w.procs (process m.slot)).heapBase / 4096 < m.base.toNat / 4096 ∧ m.base.toNat / 4096 ≤ topPage

/-- Block `c` of process `p` is a map of region `r`. -/
def Linked (process : Nat → Nat) (objects : List Smap) (p r c : Nat) : Prop :=
  ∃ m ∈ objects, process m.slot = p ∧ m.parent = r ∧ m.base.toNat / 4096 = c + 1

structure Inv (process : Nat → Nat) (w : World) (ls : Nat → List (Kind × Nat)) (reg : Nat → Nat → Nat) : Prop where
  valid : w.bitmap.Valid
  tiled : ∀ p, Tiled Clean (w.heap p) (ls p)
  guard : w.kernelTabs topPage &&& memBlockUsed = 0
  owned : Owned (fun q => w.bitmap.free q = true) (Maps w) (groupOf w ls reg)
  linked : ∀ p i, i < topPage → Present ((w.procs p).tabs i) → Shared ((w.procs p).tabs i) →
    Linked process w.objects p (reg p i) (w.blockAt ls p i)
  kernel : KernelInv process w

section

variable {process : Nat → Nat} {w : World} {ls : Nat → List (Kind × Nat)} {reg : Nat → Nat → Nat} {p : Nat}
  {h' : Heap} {l' : List (Kind × Nat)}

theorem Inv.safe (hI : Inv process w ls reg) : Safe w := by
  intro q hq
  refine ⟨fun p i _ hi hpresent heq => ?_, fun r hr j hj hpresent heq => ?_⟩
  · exact hI.owned.taken (.user p i) q ⟨hi, hpresent, heq⟩ hq
  · exact hI.owned.taken (.kernel r.base j) q ⟨⟨r, hr, rfl, hj⟩, hpresent, heq⟩ hq

theorem clean_free : Clean .free 0 := ⟨rfl, fun _ => rfl, nofun⟩

theorem clean_reserved : Clean .used memBlockReserved := ⟨rfl, nofun, nofun⟩

theorem clean_quiet (k : Kind) (e : Nat) (h : Clean k e) : e &&& memBlockUsed = 0 := h.1

theorem not_present_zero : ¬ Present 0 := by decide

theorem not_present_reserved : ¬ Present memBlockReserved := by decide

theorem Clean.rewrite {k : Kind} {e e' : Nat} (hc : Clean k e) (he : e ≠ 0) (hused : e' &&& memBlockUsed = 0)
    (hshared : ¬ Shared e') : Clean k e' :=
  ⟨hused, fun hk => absurd (hc.2.1 hk) he, fun _ => hshared⟩

variable {h : Heap} {i p' q : Nat} {l : List (Kind × Nat)}

theorem present_in_block (ht : Tiled Clean h l) (hlo : h.heapBase / 4096 ≤ i) (hhi : i < topPage)
    (hpresent : Present (h.tabs i)) :
    ∃ x k n, Live (h.heapBase / 4096) l x k n ∧ x < i ∧ i < x + n ∧ Clean k (h.tabs i) := by
  obtain ⟨x, k, n, hx, hle, hin⟩ := tiles_cover ht.row hlo hhi
  have hblock := (ht.occurs hx).2.1
  have hlt : x < i := by
    rcases Nat.lt_or_ge x i with hlt | hge
    · exact hlt
    · obtain rfl : x = i := by omega
      rw [hblock.1] at hpresent
      exact absurd hpresent (hdr_not_present k n)
  have hclean := hblock.2 i hlt hin
  refine ⟨x, k, n, ⟨hx, fun hk => not_present_zero ?_⟩, hlt, hin, hclean⟩
  rwa [hclean.2.1 hk] at hpresent

/-! ## Storing a heap -/

theorem heap_tabs_user (w : World) (p : Nat) (hi : i < topPage) :
    (w.heap p).tabs i = (w.procs p).tabs i := if_pos hi

theorem heap_tabs_kernel (w : World) (p : Nat) (hi : topPage ≤ i) :
    (w.heap p).tabs i = w.kernelTabs i := if_neg (Nat.not_lt.mpr hi)

@[simp] theorem store_procs_self (w : World) (p : Nat) (h' : Heap) :
    (w.store p h').procs p = ⟨h'.tabs, h'.heapBase, h'.heapTop, h'.memUsed⟩ := update_self ..

theorem store_procs_ne (w : World) {p : Nat} (h' : Heap) (hp : p' ≠ p) : (w.store p h').procs p' = w.procs p' :=
  update_of_ne hp ..

theorem store_kernelTabs (hout : ∀ i, topPage ≤ i → h'.tabs i = (w.heap p).tabs i) :
    (w.store p h').kernelTabs = w.kernelTabs := by
  funext i
  show (if i < topPage then w.kernelTabs i else h'.tabs i) = _
  split_ifs with hi
  · rfl
  · rw [hout i (by omega), heap_tabs_kernel w p (by omega)]

@[simp] theorem store_heap_self (w : World) (p : Nat) (h' : Heap) : (w.store p h').heap p = h' := by
  unfold World.heap
  rw [store_procs_self]
  congr 1
  funext i
  show (if i < topPage then h'.tabs i else if i < topPage then w.kernelTabs i else h'.tabs i) = h'.tabs i
  split_ifs <;> rfl

@[simp] theorem store_store (w : World) (p : Nat) (h1 h2 : Heap) : (w.store p h1).store p h2 = w.store p h2 := by
  unfold World.store
  simp only [update_idem]
  congr 1
  funext i
  split_ifs <;> rfl

theorem store_blockAt_self (hbase : h'.heapBase = (w.heap p).heapBase) (i : Nat) :
    (w.store p h').blockAt (update ls p l') p i = blockOf ((w.heap p).heapBase / 4096) l' i := by
  unfold World.blockAt
  rw [store_procs_self, update_self]
  rw [hbase]

theorem store_blockAt_ne (hp : p' ≠ p) (i : Nat) :
    (w.store p h').blockAt (update ls p l') p' i = w.blockAt ls p' i := by
  unfold World.blockAt
  rw [store_procs_ne w h' hp, update_of_ne hp]

theorem maps_store_self :
    Maps (w.store p h') (.user p i) q ↔ i < topPage ∧ Present (h'.tabs i) ∧ pageOf (h'.tabs i) = q := by
  simp [Maps, store_procs_self]

theorem maps_store_ne (hp : p' ≠ p) : Maps (w.store p h') (.user p' i) q ↔ Maps w (.user p' i) q := by
  simp [Maps, store_procs_ne w h' hp]

theorem maps_store_kernel {r j : Nat} (hout : ∀ i, topPage ≤ i → h'.tabs i = (w.heap p).tabs i) :
    Maps (w.store p h') (.kernel r j) q ↔ Maps w (.kernel r j) q := by
  simp only [Maps, store_kernelTabs hout]
  rfl

theorem group_store_self (hbase : h'.heapBase = (w.heap p).heapBase) :
    groupOf (w.store p h') (update ls p l') reg (.user p i) = if Shared (h'.tabs i) then .region (reg p i)
      else .block p (blockOf ((w.heap p).heapBase / 4096) l' i) := by
  simp [groupOf, store_procs_self, store_blockAt_self hbase]

theorem group_store_ne (hp : p' ≠ p) :
    groupOf (w.store p h') (update ls p l') reg (.user p' i) = groupOf w ls reg (.user p' i) := by
  simp [groupOf, store_procs_ne w h' hp, store_blockAt_ne hp]

theorem tiled_congr {P : Kind → Nat → Prop} (ht : Tiled P h l) (htabs : ∀ i, i < topPage → h'.tabs i = h.tabs i)
    (hsame : h'.heapBase = h.heapBase ∧ h'.heapTop = h.heapTop) : Tiled P h' l := by
  refine ⟨hsame.2.trans ht.top, by rw [hsame.1]; exact ht.aligned, ?_⟩
  rw [hsame.1]
  exact row_congr ht.row fun i _ hi => htabs i hi

theorem tiled_store_ne (hp : p' ≠ p) (ht : Tiled Clean (w.heap p') l) : Tiled Clean ((w.store p h').heap p') l := by
  have hprocs := store_procs_ne w h' hp
  refine tiled_congr ht (fun i hi => ?_) ⟨?_, ?_⟩
  · rw [heap_tabs_user _ _ hi, heap_tabs_user _ _ hi, hprocs]
  · show ((w.store p h').procs p').heapBase = _
    rw [hprocs]
    rfl
  · show ((w.store p h').procs p').heapTop = _
    rw [hprocs]
    rfl

theorem kernelInv_store (hK : KernelInv process w) (hbase : h'.heapBase = (w.heap p).heapBase)
    (hout : ∀ i, topPage ≤ i → h'.tabs i = (w.heap p).tabs i) : KernelInv process (w.store p h') := by
  refine ⟨hK.blocks, hK.apart, hK.regions, ?_, hK.distinct, hK.parents, hK.counts, fun m hm => ?_⟩
  · rw [store_kernelTabs hout]
    exact hK.present
  have hheap : ((w.store p h').procs (process m.slot)).heapBase = (w.procs (process m.slot)).heapBase := by
    by_cases hp : process m.slot = p
    · rw [hp, store_procs_self]
      exact hbase
    · rw [store_procs_ne w h' hp]
  rw [hheap]
  exact hK.maps m hm

theorem Inv.store {reg' : Nat → Nat → Nat} (hI : Inv process w ls reg) (ht : Tiled Clean h' l')
    (hbase : h'.heapBase = (w.heap p).heapBase) (hout : ∀ i, topPage ≤ i → h'.tabs i = (w.heap p).tabs i)
    (hvalid : h'.bitmap.Valid)
    (howned : Owned (fun q => h'.bitmap.free q = true) (Maps (w.store p h'))
      (groupOf (w.store p h') (update ls p l') reg'))
    (hlinked : ∀ i, i < topPage → Present (h'.tabs i) → Shared (h'.tabs i) →
      Linked process w.objects p (reg' p i) (blockOf ((w.heap p).heapBase / 4096) l' i))
    (hreg : ∀ p' i, p' ≠ p → reg' p' i = reg p' i) : Inv process (w.store p h') (update ls p l') reg' := by
  refine ⟨hvalid, fun p' => ?_, ?_, howned, fun p' i hi hpresent hshared => ?_, kernelInv_store hI.kernel hbase hout⟩
  · by_cases hp : p' = p
    · subst hp
      rw [store_heap_self, update_self]
      exact ht
    · rw [update_of_ne hp]
      exact tiled_store_ne hp (hI.tiled p')
  · rw [store_kernelTabs hout]
    exact hI.guard
  · by_cases hp : p' = p
    · subst hp
      rw [store_procs_self] at hpresent hshared
      rw [store_blockAt_self hbase]
      exact hlinked i hi hpresent hshared
    · rw [store_procs_ne w h' hp] at hpresent hshared
      rw [store_blockAt_ne hp, hreg p' i hp]
      exact hI.linked p' i hi hpresent hshared

end

end Kolibri.Shmem
