import Kolibri.KernelHeap.Calls
import Kolibri.Lib.Run

/-! # Runs of the kernel's address space -/

namespace Kolibri.KernelHeap

open LinkedLists Tiling FreeList Run Function List
open UserHeap (memBlockFree memBlockUsed pageAlign)

/-! ## The first state -/

theorem kernelPages_le (pages : Nat) : 0x1800 ≤ kernelPages pages ∧ kernelPages pages ≤ 0x80000 := by
  unfold kernelPages
  simp only
  split_ifs <;> omega

def spareBlocks : List Node := (List.range' 3 4093).map .block

theorem chain_blocks {next : Node → Node} (n len : Nat) (hnext : ∀ d, n ≤ d → d < n + len → next (.block d) = .block (d + 1))
    (hend : next (.block (n + len)) = .null) :
    Chain next (.block n) ((List.range' n (len + 1)).map Node.block ++ [.null]) := by
  induction len generalizing n with
  | zero => exact ⟨rfl, hend, trivial⟩
  | succ len ih =>
    refine ⟨rfl, ?_⟩
    rw [hnext n (Nat.le_refl n) (by omega)]
    exact ih (n + 1) (fun d h1 h2 => hnext d (by omega) (by omega)) (by rw [← hend]; congr 2; omega)

theorem init_kernel_heap_rings (h : Space) (pages : Nat) :
    Rings (initKernelHeap h pages).next (initKernelHeap h pages).prev IsHead
      (update (fun _ => []) (.freeHead 63) [.block 1]) := by
  refine ⟨fun a ha => ?_, fun a ha => ?_, fun a b x ha hb hxa hxb => ?_, fun a x ha hx => ?_⟩
  · cases ha with
    | @free i hi =>
      by_cases h63 : i = 63
      · subst h63
        simp [LinkedLists.Path, initKernelHeap, listAdd, addNext, addPrev]
      · simp [LinkedLists.Path, initKernelHeap, listAdd, addNext, addPrev, h63]
    | @used i hi => simp [LinkedLists.Path, initKernelHeap, listAdd, addNext, addPrev]
  · by_cases h63 : a = .freeHead 63
    · rw [h63, update_self]
      exact nodup_singleton _
    · rw [update_of_ne h63]
      exact nodup_nil
  · have hhead : ∀ c, x ∈ update (fun _ => []) (Node.freeHead 63) [Node.block 1] c → c = .freeHead 63 := by
      intro c hc
      by_contra hne
      rw [update_of_ne hne] at hc
      cases hc
    rw [hhead a hxa, hhead b hxb]
  · by_cases h63 : a = .freeHead 63
    · rw [h63, update_self, mem_singleton] at hx
      subst hx
      rintro ⟨⟩
    · rw [update_of_ne h63] at hx
      cases hx

theorem last_mask_bit {mask : Nat → BitVec 32} (h0 : mask 0 = 0) (h1 : mask 1 = 0x80000000) {i : Nat} (hi : i < 64) :
    MaskBit mask i ↔ i = 63 := by
  have hword : ∀ b, b < 32 → ((0x80000000#32).getLsbD b = true ↔ b = 31) := by decide
  unfold MaskBit
  rcases Nat.lt_or_ge i 32 with hlt | hge
  · rw [show i / 32 = 0 by omega, h0]
    simp
    omega
  · rw [show i / 32 = 1 by omega, h1]
    refine (hword _ (Nat.mod_lt _ (by decide))).trans ?_
    omega

theorem init_kernel_heap_valid (h : Space) (pages : Nat) :
    Valid (initKernelHeap h (kernelPages pages)) [.block 1] spareBlocks ∧
      (∀ a s, ¬ Alloc (initKernelHeap h (kernelPages pages)) [.block 1] none a s) ∧
      (initKernelHeap h (kernelPages pages)).heapSize = kernelPages pages * 4096 - 0x820000 := by
  obtain ⟨hlo, hhi⟩ := kernelPages_le pages
  generalize kernelPages pages = pages at *
  have hsize : (pages * 4096 + 2 ^ 32 - (0x800000 + descriptorsSize)) % 2 ^ 32 = pages * 4096 - 0x820000 := by
    simp only [descriptorsSize]
    omega
  have hrings := init_kernel_heap_rings h pages
  obtain ⟨k, hk⟩ : ∃ k, k = initKernelHeap h pages := ⟨_, rfl⟩
  rw [← hk] at hrings ⊢
  have hheap : k.heapSize = pages * 4096 - 0x820000 ∧ k.heapFree = pages * 4096 - 0x820000 := by
    rw [← hsize]
    simp [hk, initKernelHeap, listAdd]
  have hflags : k.flags (.block 1) = memBlockFree := by simp [hk, initKernelHeap, listAdd]
  have hbase : k.base (.block 1) = heapStart := by simp [hk, initKernelHeap, listAdd, heapStart]
  have hsz : k.size (.block 1) = pages * 4096 - 0x820000 := by
    rw [← hsize]
    simp [hk, initKernelHeap, listAdd]
  have hends : k.flags (.block 0) = memBlockUsed ∧ k.flags (.block 2) = memBlockUsed := by
    simp [hk, initKernelHeap, listAdd]
  have hpath : Path k.nextBlock k.prevBlock (.block 0) [.block 1] (.block 2) := by
    simp [LinkedLists.Path, hk, initKernelHeap, listAdd]
  have hmask : k.memBlockMask 0 = 0 ∧ k.memBlockMask 1 = 0x80000000 := by simp [hk, initKernelHeap, listAdd]
  have hspares : Chain k.next k.nextMemblock (spareBlocks ++ [.null]) := by
    have hfirst : k.nextMemblock = .block 3 := by simp [hk, initKernelHeap, listAdd]
    rw [hfirst]
    refine chain_blocks 3 4092 (fun d h1 h2 => ?_) ?_
    · simp [hk, initKernelHeap, show 3 ≤ d ∧ d < 4095 by omega]
    · simp [hk, initKernelHeap]
  clear hk
  have hclass : calcIndex (k.size (.block 1)) = 63 := by
    obtain ⟨hsmall, -⟩ := calcIndex_spec (by omega : 0 < k.size (.block 1)) (by omega) (by omega)
    have hlt := calcIndex_lt (k.size (.block 1))
    omega
  have hstart : heapStart = 0x80820000 := rfl
  have hend : heapStart + k.size (.block 1) = heapStart + k.heapSize := by rw [hsz, hheap.1]
  have htiles : Tiles (At k) heapStart [(.block 1, k.size (.block 1))] (heapStart + k.heapSize) :=
    ⟨by omega, ⟨hbase, rfl, by omega⟩, hend⟩
  have hnoalloc : ∀ a s, ¬ Alloc k [.block 1] none a s := by
    rintro a s ⟨m, hm, hu, -⟩
    obtain rfl := mem_singleton.mp hm
    exact free_ne_used (hflags.symm.trans hu.1)
  refine ⟨{
    path := hpath
    tiles := htiles
    fits := by rw [hheap.1]; omega
    listed := ⟨_, hrings, fun i m hi => ?_, fun i m hi => ?_, fun i hi => ?_⟩
    flags := fun m hm => .inr (.inl (mem_singleton.mp hm ▸ hflags))
    ends := by rw [hends.1, hends.2]; exact ⟨free_ne_used.symm, free_ne_used.symm⟩
    apart := fun m hm _ hf => ?_
    heapFree := by rw [hheap.2, ← hsz]; simp [weight, hflags]
    spares := hspares
    nodup := ?_
    blocks := fun m hm => ?_
    limbo := fun m hm => by cases hm
    classes := fun m _ _ => calcIndex_lt _ }, hnoalloc, hheap.1⟩
  · by_cases h63 : i = 63
    · subst h63
      rw [update_self]
      refine ⟨fun hm => ⟨hm, ⟨mem_singleton.mp hm ▸ hflags, by simp⟩, mem_singleton.mp hm ▸ hclass⟩, fun hm => hm.1⟩
    · rw [update_of_ne (by simpa using h63)]
      refine ⟨fun hm => (by cases hm), fun h => ?_⟩
      obtain ⟨hm, -, hcls⟩ := h
      obtain rfl := mem_singleton.mp hm
      exact absurd (hcls.symm.trans hclass) h63
  · rw [update_of_ne (by simp)]
    refine ⟨fun hm => (by cases hm), fun h => ?_⟩
    obtain ⟨hm, hu, -⟩ := h
    obtain rfl := mem_singleton.mp hm
    exact absurd (hflags.symm.trans hu.1) free_ne_used
  · rw [last_mask_bit hmask.1 hmask.2 hi]
    by_cases h63 : i = 63
    · simp [h63]
    · rw [update_of_ne (by simpa using h63)]
      simp [h63]
  · obtain rfl := mem_singleton.mp hm
    rw [show k.nextBlock (.block 1) = .block 2 from hpath.2.2.1] at hf
    exact free_ne_used (hf.1.symm.trans hends.2)
  · rw [singleton_append, nodup_cons, spareBlocks]
    refine ⟨by simp, List.Nodup.map (fun _ _ he => by simpa using he) (nodup_range' ..)⟩
  · rw [singleton_append, mem_cons, spareBlocks, mem_map] at hm
    rcases hm with rfl | ⟨d, hd, rfl⟩
    · exact ⟨1, by decide, by decide, by decide, rfl⟩
    · rw [mem_range'_1] at hd
      exact ⟨d, by omega, by omega, by omega, rfl⟩

/-! ## Calls -/

inductive Request
  | alloc (size : BitVec 32)
  | free (base : BitVec 32)

def rounded (size : BitVec 32) : Nat := pageAlign ((size.toNat + 4095) % 2 ^ 32)

/-- `kernel_alloc` lets no other request through. -/
def Admissible : Request → Prop
  | .alloc size => rounded size ≠ 0
  | .free _ => True

instance : DecidablePred Admissible
  | .alloc _ => inferInstanceAs (Decidable (_ ≠ _))
  | .free _ => inferInstanceAs (Decidable True)

structure Tracked where
  space : Space
  live : List (Nat × BitVec 32)

def start (h : Space) (pages : Nat) : Tracked := ⟨initKernelHeap h (kernelPages pages), []⟩

def step (s : Tracked) : Request → Tracked × Option Nat
  | .alloc size =>
    match allocKernelSpace s.space size with
    | none => (s, none)
    | some (h, eax) => (⟨h, if eax = 0 then s.live else (eax, size) :: s.live⟩, some eax)
  | .free base =>
    match freeKernelSpace s.space base with
    | none => (s, none)
    | some (h, eax) => (⟨h, if eax = 0 then s.live else s.live.filter (·.1 ≠ base.toNat)⟩, some eax.toNat)

def freeAll (live : List (Nat × BitVec 32)) : List Request := live.map fun p => .free (BitVec.ofNat 32 p.1)

structure Tracks (h : Space) (chain : List Node) (live : List (Nat × BitVec 32)) : Prop where
  alloc : ∀ a n, Alloc h chain none a n ↔ ∃ size, (a, size) ∈ live ∧ rounded size = n
  sizes : ∀ p ∈ live, rounded p.2 ≠ 0
  nodup : (live.map Prod.fst).Nodup

def RunInv (heapSize : Nat) (s : Tracked) : Prop :=
  ∃ chain spare, Valid s.space chain spare ∧ s.space.heapSize = heapSize ∧ Tracks s.space chain s.live

variable {h h' : Space} {chain chain' spare : List Node} {live : List (Nat × BitVec 32)} {H : Nat}

theorem start_inv (h : Space) (pages : Nat) : RunInv (kernelPages pages * 4096 - 0x820000) (start h pages) := by
  obtain ⟨V, hno, hheap⟩ := init_kernel_heap_valid h pages
  refine ⟨_, _, V, hheap, fun a n => ?_, fun p hp => ?_, nodup_nil⟩
  · exact ⟨fun ha => absurd ha (hno a n), fun ⟨_, hm, _⟩ => by cases hm⟩
  · cases hp

variable {a : Nat} {size : BitVec 32} {s : Tracked}

theorem Tracks.push (T : Tracks h chain live) (hsize : rounded size ≠ 0) (hnew : ∀ n, ¬ Alloc h chain none a n)
    (halloc : ∀ b n, Alloc h' chain' none b n ↔ Alloc h chain none b n ∨ b = a ∧ n = rounded size) :
    Tracks h' chain' ((a, size) :: live) := by
  refine ⟨fun b n => ?_, fun p hp => ?_, ?_⟩
  · rw [halloc, T.alloc]
    constructor
    · rintro (⟨sz, hm, hr⟩ | ⟨rfl, rfl⟩)
      · exact ⟨sz, mem_cons_of_mem _ hm, hr⟩
      · exact ⟨size, mem_cons_self, rfl⟩
    rintro ⟨sz, hm, rfl⟩
    rcases mem_cons.mp hm with he | hm
    · obtain ⟨rfl, rfl⟩ := Prod.mk.inj he
      exact .inr ⟨rfl, rfl⟩
    · exact .inl ⟨sz, hm, rfl⟩
  · rcases mem_cons.mp hp with rfl | hp
    · exact hsize
    · exact T.sizes p hp
  · rw [map_cons, nodup_cons]
    refine ⟨fun hm => ?_, T.nodup⟩
    obtain ⟨⟨b, sz⟩, hp, rfl⟩ := mem_map.mp hm
    exact hnew _ ((T.alloc b _).mpr ⟨sz, hp, rfl⟩)

theorem Tracks.drop (T : Tracks h chain live)
    (halloc : ∀ b n, Alloc h' chain' none b n ↔ Alloc h chain none b n ∧ b ≠ a) :
    Tracks h' chain' (live.filter (·.1 ≠ a)) := by
  refine ⟨fun b n => ?_, fun p hp => T.sizes p (mem_of_mem_filter hp), ?_⟩
  · rw [halloc, T.alloc]
    simp only [mem_filter, decide_eq_true_eq]
    exact ⟨fun ⟨⟨sz, hm, hr⟩, hb⟩ => ⟨sz, ⟨hm, hb⟩, hr⟩, fun ⟨sz, ⟨hm, hb⟩, hr⟩ => ⟨⟨sz, hm, hr⟩, hb⟩⟩
  · exact T.nodup.sublist (filter_sublist.map _)

theorem Tracks.filter_eq (T : Tracks h chain live) (hno : ∀ n, ¬ Alloc h chain none a n) :
    live.filter (·.1 ≠ a) = live := by
  refine filter_eq_self.mpr fun p hp => ?_
  rw [decide_eq_true_eq]
  rintro rfl
  exact hno _ ((T.alloc p.1 _).mpr ⟨p.2, hp, rfl⟩)

theorem step_alloc (I : RunInv H s) (hsize : rounded size ≠ 0) :
    RunInv H (step s (.alloc size)).1 ∧ (step s (.alloc size)).2 ≠ none := by
  obtain ⟨chain, spare, V, hheap, T⟩ := I
  rcases alloc_kernel_space_spec V size rfl hsize with
    ⟨hres, -⟩ | ⟨h', chain', spare', x, hx, hres, hf, -, V', hheap', -, halloc⟩
  · simp only [step, hres]
    exact ⟨⟨chain, spare, V, hheap, T⟩, by simp⟩
  have hlo := (V.mem_spec hx).2.2.2.1
  have hpos : s.space.base x ≠ 0 := by
    have hstart : heapStart = 0x80820000 := rfl
    omega
  simp only [step, hres, if_neg hpos]
  refine ⟨⟨chain', spare', V', hheap'.trans hheap, T.push hsize ?_ halloc⟩, by simp⟩
  rintro n ⟨m, hm, hu, hb, -⟩
  obtain rfl := V.base_inj hm hx hb
  exact free_ne_used (hf.symm.trans hu.1)

theorem step_free (I : RunInv H s) (base : BitVec 32) :
    RunInv H (step s (.free base)).1 ∧ (step s (.free base)).2 ≠ none ∧
      (step s (.free base)).1.live = s.live.filter (·.1 ≠ base.toNat) := by
  obtain ⟨chain, spare, V, hheap, T⟩ := I
  rcases free_kernel_space_spec V base with ⟨hres, hno⟩ | ⟨h', chain', spare', hres, V', hheap', -, halloc⟩
  · simp only [step, hres]
    exact ⟨⟨chain, spare, V, hheap, T⟩, by simp, (T.filter_eq hno).symm⟩
  · simp only [step, hres, show (-1 : BitVec 32) ≠ 0 by decide, if_false]
    exact ⟨⟨chain', spare', V', hheap'.trans hheap, T.drop halloc⟩, by simp, trivial⟩

theorem step_inv (s : Tracked) (r : Request) (I : RunInv H s) (hr : Admissible r) : RunInv H (step s r).1 := by
  cases r with
  | alloc size => exact (step_alloc I hr).1
  | free base => exact (step_free I base).1

theorem step_returns {r : Request} (I : RunInv H s) (hr : Admissible r) : (step s r).2 ≠ none := by
  cases r with
  | alloc size => exact (step_alloc I hr).2
  | free base => exact (step_free I base).2.1

theorem final_freeAll (I : RunInv H s) (l : List (Nat × BitVec 32)) (hl : ∀ p ∈ l, p.1 < 2 ^ 32) :
    RunInv H (final step s (freeAll l)) ∧
      ∀ q, q ∈ (final step s (freeAll l)).live → q ∈ s.live ∧ ∀ p ∈ l, q.1 ≠ p.1 := by
  induction l generalizing s with
  | nil => exact ⟨I, fun q hq => ⟨hq, fun p hp => by cases hp⟩⟩
  | cons p l ih =>
    obtain ⟨I', -, hlive⟩ := step_free I (BitVec.ofNat 32 p.1)
    obtain ⟨I'', hrest⟩ := ih I' fun q hq => hl q (mem_cons_of_mem _ hq)
    refine ⟨I'', fun q hq => ?_⟩
    obtain ⟨hq, hne⟩ := hrest q hq
    rw [hlive, mem_filter, decide_eq_true_eq, BitVec.toNat_ofNat, Nat.mod_eq_of_lt (hl p mem_cons_self)] at hq
    refine ⟨hq.1, fun r hr => ?_⟩
    rcases mem_cons.mp hr with rfl | hr
    · exact hq.2
    · exact hne r hr

/-! ## Every run -/

/-- The state between two calls, in the words of `heap.inc`. -/
structure WellFormed (h : Space) (chain : List Node) : Prop where
  row : Path h.nextBlock h.prevBlock (.block 0) chain (.block 2)
  tiles : Tiles (At h) heapStart (chain.map fun n => (n, h.size n)) (heapStart + h.heapSize)
  flags : ∀ n ∈ chain, h.flags n = memBlockFree ∨ h.flags n = memBlockUsed
  apart : ∀ n ∈ chain, h.flags n = memBlockFree → h.flags (h.nextBlock n) ≠ memBlockFree
  lists : ∃ members, Rings h.next h.prev IsHead members ∧
    (∀ n ∈ chain, h.flags n = memBlockFree → ∀ a, IsHead a → (n ∈ members a ↔ a = .freeHead (calcIndex (h.size n)))) ∧
    (∀ i n, i < 64 → n ∈ members (.freeHead i) → n ∈ chain ∧ h.flags n = memBlockFree) ∧
    ∀ i, i < 64 → (MaskBit h.memBlockMask i ↔ members (.freeHead i) ≠ [])
  heapFree : h.heapFree = ((chain.filter fun n => h.flags n = memBlockFree).map h.size).sum

theorem weight_filter (l : List Node) :
    (l.map (weight h none)).sum = ((l.filter fun n => h.flags n = memBlockFree).map h.size).sum := by
  induction l with
  | nil => rfl
  | cons n l ih =>
    by_cases hn : h.flags n = memBlockFree
    · simp [hn, weight, ih]
    · simp [hn, weight, ih]

theorem Valid.wellFormed (V : Valid h chain spare) : WellFormed h chain := by
  obtain ⟨members, L⟩ := V.listed
  refine ⟨V.path, V.tiles, fun n hn => (V.flags n hn).resolve_left (by simp), fun n hn hf hf' => ?_,
    ⟨members, L.rings, fun n hn hf a ha => ?_, fun i n hi hm => ?_, L.mask⟩, V.heapFree.trans (weight_filter chain)⟩
  · exact V.apart n hn ⟨hf, by simp⟩ ⟨hf', by simp⟩
  · have hmem : n ∈ members (.freeHead (calcIndex (h.size n))) :=
      (L.free _ n (calcIndex_lt _)).mpr ⟨hn, ⟨hf, by simp⟩, rfl⟩
    refine ⟨fun hm => L.rings.apart a _ n ha (.free (calcIndex_lt _)) hm hmem, ?_⟩
    rintro rfl
    exact hmem
  · obtain ⟨hn, hf, -⟩ := (L.free i n hi).mp hm
    exact ⟨hn, hf.1⟩

theorem le_rounded (hsize : rounded size ≠ 0) : size.toNat ≤ rounded size := by
  unfold rounded pageAlign at *
  omega

theorem tiles_aligned {b : Nat} {l : List Node} (ht : Tiles (At h) a (l.map fun n => (n, h.size n)) b)
    (ha : a % 4096 = 0) : ∀ n ∈ l, h.base n % 4096 = 0 := by
  induction l generalizing a with
  | nil => intro n hn; cases hn
  | cons m l ih =>
    obtain ⟨-, ⟨hbase, -, hmod⟩, hl⟩ := ht
    intro n hn
    rcases mem_cons.mp hn with rfl | hn
    · rw [hbase, ha]
    · exact ih hl (by omega) n hn

theorem Valid.single (V : Valid h chain spare) (hheap : 0 < h.heapSize) (hno : ∀ a s, ¬ Alloc h chain none a s) :
    ∃ n, chain = [n] ∧ h.flags n = memBlockFree ∧ h.base n = heapStart ∧ h.size n = h.heapSize := by
  have hfree : ∀ n ∈ chain, h.flags n = memBlockFree := by
    intro n hn
    rcases V.flags n hn with hl | hf | hu
    · cases hl
    · exact hf
    · exact absurd ⟨n, hn, ⟨hu, by simp⟩, rfl, rfl⟩ (hno _ _)
  have htiles := V.tiles
  have hpath := V.path
  match chain, hfree, htiles, hpath with
  | [], _, htiles, _ =>
    have hempty : heapStart = heapStart + h.heapSize := htiles
    omega
  | [n], hfree, htiles, _ =>
    have hend : heapStart + h.size n = heapStart + h.heapSize := htiles.2.2
    exact ⟨n, rfl, hfree n (by simp), htiles.2.1.1, by omega⟩
  | n :: m :: l, hfree, _, hpath =>
    -- Two neighbours would both be free.
    have hm : h.nextBlock n = m := hpath.2.2.1
    exact absurd ⟨hm ▸ hfree m (by simp), by simp⟩ (V.apart n (by simp) ⟨hfree n (by simp), by simp⟩)

structure Held (s : Tracked) (chain : List Node) : Prop where
  aligned : ∀ p ∈ s.live, p.1 % 4096 = 0
  large : ∀ p ∈ s.live, p.2.toNat ≤ rounded p.2
  used : ∀ p ∈ s.live, ∃ n ∈ chain,
    s.space.flags n = memBlockUsed ∧ s.space.base n = p.1 ∧ s.space.size n = rounded p.2
  disjoint : s.live.Pairwise fun p q => p.1 + rounded p.2 ≤ q.1 ∨ q.1 + rounded q.2 ≤ p.1

theorem Tracks.held (T : Tracks s.space chain s.live) (V : Valid s.space chain spare) : Held s chain := by
  have hused : ∀ p ∈ s.live, ∃ n ∈ chain,
      s.space.flags n = memBlockUsed ∧ s.space.base n = p.1 ∧ s.space.size n = rounded p.2 := by
    intro p hp
    obtain ⟨n, hn, hu, hb, hsz⟩ := (T.alloc p.1 _).mpr ⟨p.2, hp, rfl⟩
    exact ⟨n, hn, hu.1, hb, hsz⟩
  refine ⟨fun p hp => ?_, fun p hp => le_rounded (T.sizes p hp), hused, ?_⟩
  · obtain ⟨n, hn, -, hb, -⟩ := hused p hp
    rw [← hb]
    exact tiles_aligned V.tiles (by decide) n hn
  have hpair : s.live.Pairwise fun p q => p.1 ≠ q.1 := pairwise_map.mp T.nodup
  refine hpair.imp_of_mem fun {p q} hp hq hne => ?_
  obtain ⟨n, hn, -, hb, hsz⟩ := hused p hp
  obtain ⟨m, hm, -, hb', hsz'⟩ := hused q hq
  have hapart := V.disjoint hn hm fun he => hne (by rw [← hb, ← hb', he])
  rwa [hb, hb', hsz, hsz'] at hapart

def OneFreeBlock (h : Space) (heapSize : Nat) : Prop :=
  ∃ n, WellFormed h [n] ∧ h.flags n = memBlockFree ∧ h.base n = heapStart ∧ h.size n = heapSize

theorem RunInv.one_free_block (I : RunInv H s) (hH : 0 < H) (hlive : s.live = []) : OneFreeBlock s.space H := by
  obtain ⟨chain, spare, V, hheap, T⟩ := I
  have hno : ∀ a n, ¬ Alloc s.space chain none a n := by
    intro a n ha
    obtain ⟨size, hm, -⟩ := (T.alloc a n).mp ha
    rw [hlive] at hm
    cases hm
  obtain ⟨n, rfl, hf, hb, hsz⟩ := V.single (by omega) hno
  exact ⟨n, V.wellFormed, hf, hb, hsz.trans hheap⟩

theorem start_heapSize (h : Space) (pages : Nat) : (start h pages).space.heapSize = kernelPages pages * 4096 - 0x820000 :=
  (init_kernel_heap_valid h pages).2.2

theorem run_inv (h : Space) (pages : Nat) {reqs : List Request} (hreqs : ∀ r ∈ reqs, Admissible r) :
    RunInv (start h pages).space.heapSize (final step (start h pages) reqs) := by
  rw [start_heapSize]
  exact final_inv step_inv (start_inv h pages) (allowed_of_forall _ hreqs)

/-- In every run each call returns, and what the callers hold is theirs alone. -/
theorem kernel_space_runs (h : Space) (pages : Nat) (reqs : List Request) (hreqs : ∀ r ∈ reqs, Admissible r) :
    (∀ c ∈ trace step (start h pages) reqs, c.output ≠ none) ∧
    (∃ chain, WellFormed (final step (start h pages) reqs).space chain ∧
      Held (final step (start h pages) reqs) chain) ∧
    OneFreeBlock (final step (start h pages) (reqs ++ freeAll (final step (start h pages) reqs).live)).space
      (start h pages).space.heapSize := by
  have I := run_inv h pages hreqs
  refine ⟨fun c hc => ?_, ?_, ?_⟩
  · obtain ⟨Ic, hadm, heq⟩ := trace_inv step_inv (start_inv h pages) (allowed_of_forall _ hreqs) c hc
    have hret := step_returns Ic hadm
    rwa [heq] at hret
  · obtain ⟨chain, spare, V, -, T⟩ := I
    exact ⟨chain, V.wellFormed, T.held V⟩
  · have hbound : ∀ p ∈ (final step (start h pages) reqs).live, p.1 < 2 ^ 32 := by
      intro p hp
      obtain ⟨chain, spare, V, -, T⟩ := I
      obtain ⟨n, hn, -, hb, -⟩ := (T.held V).used p hp
      obtain ⟨-, hpos, -, -, hhi⟩ := V.mem_spec hn
      have hfits := V.fits
      omega
    have hpos : 0 < (start h pages).space.heapSize := by
      rw [start_heapSize]
      have hlo := (kernelPages_le pages).1
      omega
    obtain ⟨I', hlive⟩ := final_freeAll I _ hbound
    rw [final_append]
    refine I'.one_free_block hpos (eq_nil_iff_forall_not_mem.mpr fun q hq => ?_)
    obtain ⟨hq, hne⟩ := hlive q hq
    exact hne q hq rfl

def blankSpace : Space where
  next _ := .null
  prev _ := .null
  nextBlock _ := .null
  prevBlock _ := .null
  base _ := 0
  size _ := 0
  flags _ := 0
  memBlockMask _ := 0
  memHashCnt _ := 0
  nextMemblock := .null
  heapSize := 0
  heapFree := 0
  freeBlocks := 0

theorem kernel_space_runs_small : (∀ r ∈ [Request.alloc 1, .alloc 0x1001, .free 0x80820000], Admissible r) ∧
    ∀ c ∈ trace step (start blankSpace 0x8000) [.alloc 1, .alloc 0x1001, .free 0x80820000], c.output ≠ none :=
  ⟨by decide, (kernel_space_runs blankSpace 0x8000 [.alloc 1, .alloc 0x1001, .free 0x80820000] (by decide)).1⟩

/-- With a spare descriptor left, a request is refused only if no free block is large enough. -/
theorem alloc_kernel_space_finds (h : Space) (pages : Nat) (reqs : List Request) (hreqs : ∀ r ∈ reqs, Admissible r)
    (hspare : (final step (start h pages) reqs).space.nextMemblock ≠ .null) (size : BitVec 32)
    (hsize : rounded size ≠ 0) :
    ∃ chain, WellFormed (final step (start h pages) reqs).space chain ∧
      ∃ h' eax, allocKernelSpace (final step (start h pages) reqs).space size = some (h', eax) ∧
        (eax ≠ 0 ↔ ∃ n ∈ chain, (final step (start h pages) reqs).space.flags n = memBlockFree ∧
          rounded size ≤ (final step (start h pages) reqs).space.size n) := by
  obtain ⟨chain, spare, V, -, -⟩ := run_inv h pages hreqs
  refine ⟨chain, V.wellFormed, ?_⟩
  rcases alloc_kernel_space_spec V size rfl hsize with
    ⟨hres, hsmall⟩ | ⟨h', chain', spare', x, hx, hres, hf, hle, -⟩
  · refine ⟨_, 0, hres, fun hne => absurd rfl hne, fun ⟨n, hn, hf, hle⟩ => ?_⟩
    have hlt : _ < rounded size := hsmall hspare n hn hf
    omega
  · refine ⟨h', _, hres, fun _ => ⟨x, hx, hf, hle⟩, fun _ => ?_⟩
    have hlo := (V.mem_spec hx).2.2.2.1
    have hstart : heapStart = 0x80820000 := rfl
    omega

theorem alloc_kernel_space_finds_page : (start blankSpace 0x8000).space.nextMemblock ≠ .null ∧
    ∃ chain : List Node, ∃ h' eax, allocKernelSpace (start blankSpace 0x8000).space 0x1000 = some (h', eax) ∧
      (eax ≠ 0 ↔ ∃ n ∈ chain, (start blankSpace 0x8000).space.flags n = memBlockFree ∧
        rounded 0x1000 ≤ (start blankSpace 0x8000).space.size n) := by
  have hspare : (start blankSpace 0x8000).space.nextMemblock ≠ .null := by simp [start, initKernelHeap, listAdd]
  obtain ⟨chain, -, h', eax, hres⟩ :=
    alloc_kernel_space_finds blankSpace 0x8000 [] (by simp) hspare 0x1000 (by decide)
  exact ⟨hspare, chain, h', eax, hres⟩

end Kolibri.KernelHeap
