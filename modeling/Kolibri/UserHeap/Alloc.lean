import Kolibri.UserHeap.Spec

/-! # What the allocating functions do

`P` is what is known about the entries behind the headers.
-/

namespace Kolibri.UserHeap

open Tiling Function

variable {m n x x₀ : Nat} {h' : Heap} {size : BitVec 32}

section

variable {P : Kind → Nat → Prop} {tabs : Nat → Nat} {l : List (Kind × Nat)} {a : Nat}

/-! ## `user_alloc` -/

theorem user_alloc_scan_spec (h : Row P tabs a l topPage) (m fuel : Nat) (hfuel : l.length < fuel) :
    (userAllocScan tabs heapTopAddr (4096 * m) fuel (4096 * a) = .exit ∧ ∀ x n, Occurs a l x .free n → n < m) ∨
    ∃ x n, Occurs a l x .free n ∧ m ≤ n ∧
      userAllocScan tabs heapTopAddr (4096 * m) fuel (4096 * a) = .found (4096 * x) (4096 * n) := by
  induction l generalizing a fuel with
  | nil =>
    obtain ⟨fuel, rfl⟩ : ∃ f, fuel = f + 1 := ⟨fuel - 1, by rw [List.length_nil] at hfuel; omega⟩
    obtain rfl : a = topPage := h
    left
    unfold userAllocScan
    rw [if_pos (by decide)]
    exact ⟨rfl, fun x n hx => hx.elim⟩
  | cons block l ih =>
    obtain ⟨k, n⟩ := block
    rw [List.length_cons] at hfuel
    obtain ⟨fuel, rfl⟩ : ∃ f, fuel = f + 1 := ⟨fuel - 1, by omega⟩
    obtain ⟨hend, hpos⟩ := row_head_lt h
    obtain ⟨-, hblock, hl⟩ := h
    have hnext : (4096 * a + 4096 * n) % 2 ^ 32 = 4096 * (a + n) := by omega
    have hread : tabs (4096 * a / 4096) = hdr k n := by
      rw [Nat.mul_div_cancel_left a (by decide)]
      exact hblock.1
    have hih := ih hl fuel (by omega)
    unfold userAllocScan
    rw [if_neg (by unfold heapTopAddr; omega), hread]
    simp only [pageAlign_hdr, ne_eq, hdr_and_free, hdr_and_used, not_not, hnext]
    by_cases hk : k = .free
    · subst hk
      rw [if_pos rfl]
      by_cases hn : n < m
      · -- Too small: the walk goes on.
        rw [if_pos (by omega)]
        rcases hih with ⟨hexit, hnone⟩ | ⟨x, n', hx, hm, hfound⟩
        · refine .inl ⟨hexit, fun x n' hx => ?_⟩
          rcases hx with ⟨rfl, -, rfl⟩ | hx
          · exact hn
          · exact hnone x n' hx
        · exact .inr ⟨x, n', .inr hx, hm, hfound⟩
      · rw [if_neg (by omega)]
        exact .inr ⟨a, n, .inl ⟨rfl, rfl, rfl⟩, by omega, rfl⟩
    · rw [if_neg hk, if_pos hk]
      rcases hih with ⟨hexit, hnone⟩ | ⟨x, n', hx, hm, hfound⟩
      · refine .inl ⟨hexit, fun x n' hx => ?_⟩
        rcases hx with ⟨-, hk', -⟩ | hx
        · exact absurd hk'.symm hk
        · exact hnone x n' hx
      · exact .inr ⟨x, n', .inr hx, hm, hfound⟩

/-! ## Cutting a used block out of a free one -/

def carve (tabs : Nat → Nat) (x₀ n x m : Nat) : Nat → Nat := fun i =>
  if i = x then hdr .used m
  else if x < i ∧ i < x + m then memBlockReserved
  else if i = x + m ∧ i < x₀ + n then hdr .free (x₀ + n - i)
  else if i = x₀ then hdr .free (x - x₀)
  else tabs i

theorem carve_outside {i : Nat} (hlo : x₀ ≤ x) (hhi : x + m ≤ x₀ + n) (hm : 0 < m) (hi : i < x₀ ∨ x₀ + n ≤ i) :
    carve tabs x₀ n x m i = tabs i := by
  unfold carve
  rw [if_neg (by omega), if_neg (by omega), if_neg (by omega), if_neg (by omega)]

def carved (x₀ n x m : Nat) : List (Kind × Nat) :=
  (if x₀ < x then [(Kind.free, x - x₀)] else []) ++
    ((.used, m) :: if x + m < x₀ + n then [(Kind.free, x₀ + n - (x + m))] else [])

theorem row_carved (hblock : Block P tabs x₀ .free n) (hres : P .used memBlockReserved) (hlo : x₀ ≤ x)
    (hhi : x + m ≤ x₀ + n) (hm : 0 < m) : Row P (carve tabs x₀ n x m) x₀ (carved x₀ n x m) (x₀ + n) := by
  have hused : Block P (carve tabs x₀ n x m) x .used m := by
    refine ⟨if_pos rfl, fun i h1 h2 => ?_⟩
    unfold carve
    rw [if_neg (by omega), if_pos ⟨h1, h2⟩]
    exact hres
  refine tiles_append.mpr ⟨x, ?_, hm, hused, ?_⟩
  · split_ifs with hfirst
    · refine ⟨by omega, ⟨?_, fun i h1 h2 => ?_⟩, by show x₀ + (x - x₀) = x; omega⟩
      · unfold carve
        rw [if_neg (by omega), if_neg (by omega), if_neg (by omega), if_pos rfl]
      · unfold carve
        rw [if_neg (by omega), if_neg (by omega), if_neg (by omega), if_neg (by omega)]
        exact hblock.2 i h1 (by omega)
    · exact (by omega : x₀ = x)
  split_ifs with hthird
  · refine ⟨by omega, ⟨?_, fun i h1 h2 => ?_⟩, ?_⟩
    · unfold carve
      rw [if_neg (by omega), if_neg (by omega), if_pos ⟨rfl, hthird⟩]
    · unfold carve
      rw [if_neg (by omega), if_neg (by omega), if_neg (by omega), if_neg (by omega)]
      exact hblock.2 i (by omega) (by omega)
    · show x + m + (x₀ + n - (x + m)) = x₀ + n
      omega
  · exact (by omega : x + m = x₀ + n)

theorem live_carved (hlo : x₀ ≤ x) (z : Nat) (k : Kind) (n' : Nat) :
    Live x₀ (carved x₀ n x m) z k n' ↔ z = x ∧ k = .used ∧ n' = m := by
  unfold carved
  by_cases hfirst : x₀ < x
  · rw [if_pos hfirst, List.singleton_append, live_free, show x₀ + (x - x₀) = x by omega]
    split_ifs <;> simp
  · obtain rfl : x₀ = x := by omega
    rw [if_neg hfirst, List.nil_append]
    split_ifs <;> simp

end

variable {P : Kind → Nat → Prop} {h : Heap} {l : List (Kind × Nat)}

/-- A new used block of `m` pages at `x`, all of them reserved. -/
structure NewBlock (P : Kind → Nat → Prop) (h : Heap) (l : List (Kind × Nat)) (x m : Nat) (h' : Heap)
    (l' : List (Kind × Nat)) : Prop where
  changed : Changed P h l (fun _ => False) (fun z n => z = x ∧ n = m) h' l'
  reserved : ∀ i, x < i → i < x + m → h'.tabs i = memBlockReserved
  bitmap : h'.bitmap = h.bitmap

theorem newBlock_carve (ht : Tiled P h l) (hres : P .used memBlockReserved)
    (hx : Occurs (h.heapBase / 4096) l x₀ .free n) (hlo : x₀ ≤ x) (hhi : x + m ≤ x₀ + n) (hm : 0 < m)
    (htabs : h'.tabs = carve h.tabs x₀ n x m) (hbitmap : h'.bitmap = h.bitmap)
    (hsame : h'.heapBase = h.heapBase ∧ h'.heapTop = h.heapTop) : ∃ l', NewBlock P h l x m h' l' := by
  obtain ⟨l1, l2, rfl, h1, h2⟩ := tiles_cut ht.row hx
  obtain ⟨hpos, hblock, -, -⟩ := ht.occurs hx
  have hold : Row P h.tabs x₀ [(.free, n)] (x₀ + n) := ⟨hpos, hblock, rfl⟩
  have hnew : Row P h'.tabs x₀ (carved x₀ n x m) (x₀ + n) := by
    rw [htabs]
    exact row_carved hblock hres hlo hhi hm
  refine ⟨_, changed_of_edit ht h1 hold h2 hnew hsame (fun i hi => ?_) (fun z => ?_) fun z k n' => ?_,
    fun i h1 h2 => ?_, hbitmap⟩
  · rw [htabs]
    exact carve_outside hlo hhi hm hi
  · -- The block that goes was free.
    simp
  · rw [live_carved hlo]
    tauto
  · rw [htabs]
    unfold carve
    rw [if_neg (by omega), if_pos ⟨h1, h2⟩]

def pagesFor (size : Nat) : Nat := (size + 0x1FFF) / 4096

theorem pageAlign_pagesFor {size : Nat} (hsize : size ≤ 0xFFFFE000) :
    pageAlign ((size + 0x1FFF) % 2 ^ 32) = 4096 * pagesFor size := by
  unfold pageAlign pagesFor
  omega

theorem payload_pages (hm : 0 < m) (hlt : m < 2 ^ 20) : payload (4096 * m) = m - 1 := by
  unfold payload
  omega

def Allocated (P : Kind → Nat → Prop) (h : Heap) (l : List (Kind × Nat)) (size : BitVec 32)
    (r : Option (Heap × BitVec 32)) : Prop :=
  ∃ x h' l', r = some (h', BitVec.ofNat 32 (4096 * (x + 1))) ∧ NewBlock P h l x (pagesFor size.toNat) h' l' ∧
    h'.memUsed = h.memUsed + ((size + 4095) &&& 0xFFFFF000)

theorem allocated_of_carve {eax : BitVec 32} (ht : Tiled P h l) (hres : P .used memBlockReserved)
    (hx : Occurs (h.heapBase / 4096) l x₀ .free n) (hlo : x₀ ≤ x) (hhi : x + pagesFor size.toNat ≤ x₀ + n)
    (htabs : h'.tabs = carve h.tabs x₀ n x (pagesFor size.toNat)) (heax : eax = BitVec.ofNat 32 (4096 * (x + 1)))
    (hbitmap : h'.bitmap = h.bitmap) (hsame : h'.heapBase = h.heapBase ∧ h'.heapTop = h.heapTop)
    (hused : h'.memUsed = h.memUsed + ((size + 4095) &&& 0xFFFFF000)) : Allocated P h l size (some (h', eax)) := by
  have hm : 0 < pagesFor size.toNat := by unfold pagesFor; omega
  obtain ⟨l', hnew⟩ := newBlock_carve ht hres hx hlo hhi hm htabs hbitmap hsame
  exact ⟨x, h', l', by rw [heax], hnew, hused⟩

theorem user_alloc_spec (ht : Tiled P h l) (hres : P .used memBlockReserved) (hsize : size.toNat ≤ 0xFFFFE000) :
    (userAlloc h size = some (h, 0) ∧ ∀ x n, Occurs (h.heapBase / 4096) l x .free n → n < pagesFor size.toNat) ∨
    Allocated P h l size (userAlloc h size) := by
  have hm : 0 < pagesFor size.toNat := by unfold pagesFor; omega
  have hscan := user_alloc_scan_spec ht.row (pagesFor size.toNat) walkFuel (row_length_lt ht.row)
  rw [ht.base_eq, ← ht.top] at hscan
  unfold userAlloc
  rw [pageAlign_pagesFor hsize]
  rcases hscan with ⟨hexit, hnone⟩ | ⟨x, n, hx, hmn, hfound⟩
  · left
    simp only [hexit]
    exact ⟨trivial, hnone⟩
  right
  obtain ⟨-, -, -, hend⟩ := ht.occurs hx
  have hfit : x + 1 + (pagesFor size.toNat - 1) ≤ 2 ^ 30 := by omega
  have hrest : (4096 * x + 4096 * pagesFor size.toNat) % 2 ^ 32 / 4096 = x + pagesFor size.toNat := by omega
  simp only [hfound]
  refine allocated_of_carve ht hres hx (Nat.le_refl x) (by omega) ?_ (by rw [Nat.mul_add]) rfl
    ⟨rfl, rfl⟩ rfl
  funext i
  unfold carve
  simp only [payload_pages hm (by omega), Nat.mul_div_cancel_left x (by decide : 0 < 4096), hrest,
    or_used, ← Nat.mul_sub, or_free, ite_apply, update_apply, fill_apply _ _ hfit]
  split_ifs <;> first | rfl | omega | (congr 1; omega)

/-! ## `user_alloc_at` -/

theorem user_alloc_at_scan_spec {tabs : Nat → Nat} {a p : Nat} (h : Row P tabs a l topPage) (fuel : Nat)
    (hfuel : l.length < fuel) (hp : a ≤ p) :
    userAllocAtScan tabs heapTopAddr (4096 * p) fuel (4096 * a) = .exit ∨
    ∃ x k n, Occurs a l x k n ∧ x ≤ p ∧ p < x + n ∧
      userAllocAtScan tabs heapTopAddr (4096 * p) fuel (4096 * a) = .found (4096 * x) (hdr k n) := by
  induction l generalizing a fuel with
  | nil =>
    obtain ⟨fuel, rfl⟩ : ∃ f, fuel = f + 1 := ⟨fuel - 1, by rw [List.length_nil] at hfuel; omega⟩
    obtain rfl : a = topPage := h
    left
    unfold userAllocAtScan
    rw [if_pos (by decide)]
  | cons block l ih =>
    obtain ⟨k, n⟩ := block
    rw [List.length_cons] at hfuel
    obtain ⟨fuel, rfl⟩ : ∃ f, fuel = f + 1 := ⟨fuel - 1, by omega⟩
    obtain ⟨hend, hpos⟩ := row_head_lt h
    obtain ⟨-, hblock, hl⟩ := h
    have hnext : (4096 * n + 4096 * a) % 2 ^ 32 = 4096 * (a + n) := by omega
    have hread : tabs (4096 * a / 4096) = hdr k n := by
      rw [Nat.mul_div_cancel_left a (by decide)]
      exact hblock.1
    unfold userAllocAtScan
    rw [if_neg (by unfold heapTopAddr; omega), hread]
    simp only [pageAlign_hdr, hnext]
    by_cases hin : p < a + n
    · rw [if_pos (by omega)]
      exact .inr ⟨a, k, n, .inl ⟨rfl, rfl, rfl⟩, hp, hin, rfl⟩
    · rw [if_neg (by omega)]
      rcases ih hl fuel (by omega) (by omega) with hexit | ⟨x, k', n', hx, hfound⟩
      · exact .inl hexit
      · exact .inr ⟨x, k', n', .inr hx, hfound⟩

/-- With a size of 0 the header of the part behind replaces the header of the block. -/
theorem user_alloc_at_spec (ht : Tiled P h l) (hres : P .used memBlockReserved) (address : BitVec 32)
    (hsize : size ≠ 0) :
    userAllocAt h address size = some (h, 0) ∨ Allocated P h l size (userAllocAt h address size) := by
  have hbase := ht.base_eq
  obtain ⟨p, hp⟩ : ∃ p, pageAlign address.toNat = 4096 * p := ⟨_, Nat.mul_comm _ _⟩
  unfold userAllocAt
  simp only [hp]
  by_cases hlow : 4096 * p < 4096
  · exact .inl (if_pos hlow)
  rw [if_neg hlow]
  by_cases hbelow : 4096 * p - 4096 < h.heapBase
  · exact .inl (if_pos hbelow)
  rw [if_neg hbelow, ht.top, show 4096 * p - 4096 = 4096 * (p - 1) by omega]
  have hscan := user_alloc_at_scan_spec ht.row walkFuel (row_length_lt ht.row)
    (by omega : h.heapBase / 4096 ≤ p - 1)
  rw [hbase] at hscan
  rcases hscan with hexit | ⟨x₀, k, n, hx, hlo, hin, hfound⟩
  · left
    rw [hexit]
  obtain ⟨-, -, -, hend⟩ := ht.occurs hx
  have hstop : (4096 * n + 4096 * x₀) % 2 ^ 32 = 4096 * (x₀ + n) := by omega
  simp only [hfound, pageAlign_hdr, hdr_and_free, hstop]
  by_cases hk : k = .free
  swap
  · exact .inl (if_pos hk)
  subst hk
  rw [if_neg (by simp)]
  by_cases hroom : (4096 * (x₀ + n) - 4096 * (p - 1) + 2 ^ 32 - 4096) % 2 ^ 32 < size.toNat
  · exact .inl (if_pos hroom)
  right
  rw [if_neg hroom]
  have hnonzero : 0 < size.toNat := by
    rcases Nat.eq_zero_or_pos size.toNat with hz | hpos
    · exact absurd (BitVec.eq_of_toNat_eq hz) hsize
    · exact hpos
  have hm : 2 ≤ pagesFor size.toNat ∧ p - 1 + pagesFor size.toNat ≤ x₀ + n := by unfold pagesFor; omega
  obtain ⟨hm, hhi⟩ := hm
  have hrest : (4096 * (x₀ + n) + 2 ^ 32 - (4096 * (p - 1) + 4096 * pagesFor size.toNat)) % 2 ^ 32 =
      4096 * (x₀ + n - (p - 1 + pagesFor size.toNat)) := by
    rw [show 4096 * (x₀ + n) + 2 ^ 32 - (4096 * (p - 1) + 4096 * pagesFor size.toNat) =
      4096 * (x₀ + n - (p - 1 + pagesFor size.toNat)) + 2 ^ 32 by omega, Nat.add_mod_right,
      Nat.mod_eq_of_lt (by omega)]
  refine allocated_of_carve ht hres hx hlo hhi ?_ (by rw [show p - 1 + 1 = p by omega]) rfl
    ⟨rfl, ht.top.symm⟩ rfl
  have hfit : p - 1 + 1 + (pagesFor size.toNat - 1) ≤ 2 ^ 30 := by omega
  funext i
  unfold carve
  simp only [pageAlign_pagesFor (by omega : size.toNat ≤ 0xFFFFE000),
    payload_pages (by omega : 0 < pagesFor size.toNat) (by omega),
    if_neg (by omega : pagesFor size.toNat - 1 ≠ 0), hrest, Nat.mul_div_cancel_left _ (by decide : 0 < 4096),
    or_used, ← Nat.mul_sub, or_free, ite_apply, update_apply, fill_apply _ _ hfit]
  split_ifs <;> first | rfl | omega | (congr 1; omega)

end Kolibri.UserHeap
