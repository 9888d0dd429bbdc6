import Kolibri.KernelHeap.Code
import Kolibri.Lib.FreeList
import Kolibri.Lib.Tiling

/-! # What the kernel's address space means

The descriptors from the first one to the terminator are a row of blocks.
-/

namespace Kolibri.KernelHeap

open LinkedLists Tiling FreeList Function List
open UserHeap (memBlockFree memBlockUsed)

inductive IsHead : Node → Prop
  | free {i : Nat} (hi : i < 64) : IsHead (.freeHead i)
  | used {i : Nat} (hi : i < 64) : IsHead (.usedHead i)

def MaskBit (mask : Nat → BitVec 32) (i : Nat) : Prop := (mask (i / 32)).getLsbD (i % 32) = true

structure Listed (h : Space) (members : Node → List Node) (F U : Nat → Node → Prop) : Prop where
  rings : Rings h.next h.prev IsHead members
  free : ∀ i n, i < 64 → (n ∈ members (.freeHead i) ↔ F i n)
  used : ∀ i n, i < 64 → (n ∈ members (.usedHead i) ↔ U i n)
  mask : ∀ i, i < 64 → (MaskBit h.memBlockMask i ↔ members (.freeHead i) ≠ [])

variable (h : Space)

/-- During a call one block, `lim`, may be in no list. -/
def Free (lim : Option Node) (n : Node) : Prop := h.flags n = memBlockFree ∧ lim ≠ some n

def Used (lim : Option Node) (n : Node) : Prop := h.flags n = memBlockUsed ∧ lim ≠ some n

def At (x : Nat) (n : Node) (s : Nat) : Prop := h.base n = x ∧ h.size n = s ∧ s % 4096 = 0

def weight (lim : Option Node) (n : Node) : Nat :=
  if h.flags n = memBlockFree ∨ lim = some n then h.size n else 0

def heapStart : Nat := heapBase + descriptorsSize

variable (chain : List Node)

def InFree (lim : Option Node) (cls : Node → Nat) (i : Nat) (n : Node) : Prop :=
  n ∈ chain ∧ Free h lim n ∧ cls n = i

def InUsed (lim : Option Node) (i : Nat) (n : Node) : Prop :=
  n ∈ chain ∧ Used h lim n ∧ usedIndex (h.base n) = i

/-- The blocks `chain` with the lists and the spare descriptors. A free block `n` is in list `cls n`. -/
structure Inv (h : Space) (chain spare : List Node) (lim : Option Node) (cls : Node → Nat) : Prop where
  path : Path h.nextBlock h.prevBlock (.block 0) chain (.block 2)
  tiles : Tiles (At h) heapStart (chain.map fun n => (n, h.size n)) (heapStart + h.heapSize)
  fits : heapStart + h.heapSize ≤ 2 ^ 32
  listed : ∃ members, Listed h members (InFree h chain lim cls) (InUsed h chain lim)
  flags : ∀ n ∈ chain, lim = some n ∨ h.flags n = memBlockFree ∨ h.flags n = memBlockUsed
  ends : h.flags (.block 0) ≠ memBlockFree ∧ h.flags (.block 2) ≠ memBlockFree
  apart : ∀ n ∈ chain, Free h lim n → ¬ Free h lim (h.nextBlock n)
  heapFree : h.heapFree = (chain.map (weight h lim)).sum
  spares : Chain h.next h.nextMemblock (spare ++ [.null])
  nodup : (chain ++ spare).Nodup
  blocks : ∀ n ∈ chain ++ spare, ∃ d, d < 4096 ∧ d ≠ 0 ∧ d ≠ 2 ∧ n = .block d
  limbo : ∀ n, lim = some n → n ∈ chain
  classes : ∀ n ∈ chain, Free h lim n → cls n < 64

def Sized (cls : Node → Nat) : Prop :=
  ∀ n ∈ chain, h.flags n = memBlockFree → cls n = calcIndex (h.size n)

def Alloc (lim : Option Node) (a s : Nat) : Prop :=
  ∃ n ∈ chain, Used h lim n ∧ h.base n = a ∧ h.size n = s

theorem free_ne_used : memBlockFree ≠ memBlockUsed := by decide

variable {h : Space} {chain spare : List Node} {lim : Option Node} {cls : Node → Nat}

/-! ## Nodes -/

variable {n m : Node} {s : Nat}

section

variable (I : Inv h chain spare lim cls)
include I

theorem Inv.block_ne (hn : n ∈ chain ++ spare) : n ≠ .null ∧ n ≠ .block 0 ∧ n ≠ .block 2 ∧ ¬ IsHead n := by
  obtain ⟨d, -, h0, h2, rfl⟩ := I.blocks n hn
  refine ⟨by simp, by simpa using h0, by simpa using h2, ?_⟩
  rintro ⟨⟩

theorem Inv.mem_block_ne (hn : n ∈ chain) : n ≠ .null ∧ n ≠ .block 0 ∧ n ≠ .block 2 ∧ ¬ IsHead n :=
  I.block_ne (mem_append_left _ hn)

theorem Inv.spare_block_ne (hn : n ∈ spare) : n ≠ .null ∧ n ≠ .block 0 ∧ n ≠ .block 2 ∧ ¬ IsHead n :=
  I.block_ne (mem_append_right _ hn)

theorem Inv.spare_notMem (hn : n ∈ spare) : n ∉ chain :=
  fun hc => (nodup_append.mp I.nodup).2.2 n hc n hn rfl

theorem Inv.chain_nodup : chain.Nodup := (nodup_append.mp I.nodup).1

theorem Inv.chain_ends : (chain ++ [Node.block 2]).Nodup ∧ Node.block 0 ∉ chain := by
  refine ⟨?_, fun hn => (I.mem_block_ne hn).2.1 rfl⟩
  rw [nodup_append]
  refine ⟨I.chain_nodup, nodup_singleton _, fun x hx y hy he => ?_⟩
  rw [mem_singleton] at hy
  exact (I.mem_block_ne hx).2.2.1 (he.trans hy)

theorem Inv.free_next (hn : n = .block 0 ∨ n ∈ chain)
    (hfree : h.flags (h.nextBlock n) = memBlockFree) : h.nextBlock n ∈ chain := by
  rcases path_next_mem I.path hn with hm | hm
  · exact hm
  · exact absurd (hm ▸ hfree) I.ends.2

theorem Inv.free_prev (hn : n ∈ chain)
    (hfree : h.flags (h.prevBlock n) = memBlockFree) : h.prevBlock n ∈ chain := by
  rcases path_prev_mem I.path (.inl hn) with hm | hm
  · exact absurd (hm ▸ hfree) I.ends.1
  · exact hm

end

/-! ## Sizes -/

theorem tiles_sum {a b : Nat} {l : List Node} (ht : Tiles (At h) a (l.map fun n => (n, h.size n)) b) :
    a + (l.map h.size).sum = b := by
  induction l generalizing a with
  | nil => exact ht
  | cons n l ih =>
    have hl := ih ht.2.2
    simp only [map_cons, sum_cons]
    omega

theorem weight_le (n : Node) : weight h lim n ≤ h.size n := by
  unfold weight
  split_ifs <;> omega

theorem weight_sum_le (l : List Node) : (l.map (weight h lim)).sum ≤ (l.map h.size).sum := by
  induction l with
  | nil => simp
  | cons n l ih =>
    have hn : weight h lim n ≤ h.size n := weight_le n
    simp only [map_cons, sum_cons]
    omega

theorem Inv.mem_spec (I : Inv h chain spare lim cls) (hn : n ∈ chain) :
    Occurs heapStart (chain.map fun n => (n, h.size n)) (h.base n) n (h.size n) ∧ 0 < h.size n ∧
      h.size n % 4096 = 0 ∧ heapStart ≤ h.base n ∧ h.base n + h.size n ≤ heapStart + h.heapSize := by
  have hocc : ∀ (a b : Nat) (l : List Node), Tiles (At h) a (l.map fun n => (n, h.size n)) b → n ∈ l →
      Occurs a (l.map fun n => (n, h.size n)) (h.base n) n (h.size n) := by
    intro a b l
    induction l generalizing a with
    | nil => intro _ hm; cases hm
    | cons m l ih =>
      intro ht hm
      rcases mem_cons.mp hm with rfl | hm
      · exact .inl ⟨ht.2.1.1, rfl, rfl⟩
      · exact .inr (ih _ ht.2.2 hm)
  have hx := hocc _ _ _ I.tiles hn
  obtain ⟨hpos, ⟨-, -, hmod⟩, hlo, hhi⟩ := tiles_occurs I.tiles hx
  exact ⟨hx, hpos, hmod, hlo, hhi⟩

theorem Inv.disjoint (I : Inv h chain spare lim cls) (hn : n ∈ chain) (hm : m ∈ chain) (hne : n ≠ m) :
    h.base n + h.size n ≤ h.base m ∨ h.base m + h.size m ≤ h.base n := by
  rcases occurs_apart I.tiles (I.mem_spec hn).1 (I.mem_spec hm).1 with hle | hle | ⟨-, he, -⟩
  · exact .inl hle
  · exact .inr hle
  · exact absurd he hne

theorem Inv.base_inj (I : Inv h chain spare lim cls) (hn : n ∈ chain) (hm : m ∈ chain) (hbase : h.base n = h.base m) :
    n = m := by
  by_contra hne
  have hpos := (I.mem_spec hn).2.1
  have hpos' := (I.mem_spec hm).2.1
  rcases I.disjoint hn hm hne with hle | hle <;> omega

theorem calcIndex_lt (s : Nat) : calcIndex s < 64 := by
  unfold calcIndex
  omega

theorem usedIndex_lt (a : Nat) : usedIndex a < 64 := Nat.mod_lt _ (by decide)

theorem calcIndex_spec (hpos : 0 < s) (hmod : s % 4096 = 0) (hlt : s < 2 ^ 32) :
    (calcIndex s < 63 → s = 4096 * (calcIndex s + 1)) ∧ (calcIndex s = 63 → 4096 * 64 ≤ s) := by
  unfold calcIndex
  omega

theorem calcIndex_mono {t : Nat} (hpos : 0 < s) (hmod : s % 4096 = 0) (hle : s ≤ t) (hlt : t < 2 ^ 32) :
    calcIndex s ≤ calcIndex t := by
  unfold calcIndex
  omega

end Kolibri.KernelHeap
