import Kolibri.Lib.Leads

/-! # Blocks of one size (`slab.inc`)

The last two double words of a page are the head of its list of free blocks and the next page.
-/

namespace Kolibri.Slab

open Function BitVec Option

/-- The memory by double words. The code reads and writes at multiples of four only. -/
abbrev Words := BitVec 32 → BitVec 32

def joinLoop (size edi : BitVec 32) : Nat → Words → BitVec 32 → Option (Words × BitVec 32)
  | 0, _, _ => none
  | fuel + 1, w, edx =>
    let ecx := edx
    let edx := edx + size
    let w := update w ecx edx
    if edx ≤ edi then joinLoop size edi fuel w edx else some (w, ecx)

/-- Steps 6 and 7. The loop takes less than 1024 rounds, for a size of four and more. -/
def initPage (size page : BitVec 32) (w : Words) : Option Words := do
  let edi := page + (0x1000#32 - 8#32)
  let edx := page + size
  let w := update w edi edx
  let w := update w (edi + 4#32) 0
  let (w, ecx) ← joinLoop size edi 1024 w edx
  some (update w (ecx - size) 0)

/-- Step 2: the end of the first page with a free block, or of the last page. -/
def findPage (w : Words) : Nat → BitVec 32 → Option (BitVec 32 ⊕ BitVec 32)
  | 0, _ => none
  | fuel + 1, edx =>
    let eax := edx
    let edx := w (edx - 4#32)
    if edx = 0 then some (.inr eax)
    else
      let edx := edx + 0x1000#32
      if w (edx - 8#32) = 0 then findPage w fuel edx else some (.inl edx)

/-- A call that no other one disturbs. `pool` is the address of the mutex. -/
def slabAlloc (fuel : Nat) (size pool page : BitVec 32) (w : Words) : Option (BitVec 32 × Words) := do
  match ← findPage w fuel pool with
  | .inl edx =>
    let eax := w (edx - 8#32)
    let ecx := w eax
    some (eax, update w (edx - 8#32) ecx)
  | .inr edx =>
    if page = 0 then some (0, w)
    else
      let w := update w (edx - 4#32) page
      let w ← initPage size page w
      some (page, w)

def FreeList (w : Words) (page : BitVec 32) (blocks : List (BitVec 32)) : Prop :=
  Leads w (· ≠ 0) (w (page + 0xFF8#32)) blocks 0

variable {fuel x y m : Nat} {page pool size : BitVec 32} {w : Words}

theorem slabAlloc_newPage {edx : BitVec 32} (hne : page ≠ 0) (hfull : findPage w fuel pool = some (.inr edx)) :
    slabAlloc fuel size pool page w = (initPage size page (update w (edx - 4#32) page)).map fun w => (page, w) := by
  rw [slabAlloc, hfull]
  simp only [bind_eq_bind, bind_some, if_neg hne]
  rw [map_eq_bind]
  rfl

/-! ## Addresses of a page -/

def offset (page : BitVec 32) (x : Nat) : BitVec 32 := page + BitVec.ofNat 32 x

variable {page size : BitVec 32}

structure IsPage (page : BitVec 32) : Prop where
  ne_zero : page ≠ 0
  below : page.toNat + 0x2000 ≤ 2 ^ 32

theorem IsPage.toNat_offset (h : IsPage page) (hx : x < 0x2000) : (offset page x).toNat = page.toNat + x := by
  have hbelow := h.below
  rw [offset, toNat_add, toNat_ofNat]
  omega

theorem IsPage.offset_inj (h : IsPage page) (hx : x < 0x2000) (hy : y < 0x2000) :
    offset page x = offset page y ↔ x = y := by
  rw [← toNat_inj, h.toNat_offset hx, h.toNat_offset hy]
  omega

theorem IsPage.offset_ne_zero (h : IsPage page) (hx : x < 0x2000) : offset page x ≠ 0 := by
  have hne := toNat_ne.mp h.ne_zero
  rw [toNat_ne, h.toNat_offset hx]
  simp only [ofNat_eq_ofNat, toNat_ofNat] at hne ⊢
  omega

theorem IsPage.offset_le_iff (h : IsPage page) (hx : x < 0x2000) (hy : y < 0x2000) :
    offset page x ≤ offset page y ↔ x ≤ y := by
  rw [le_def, h.toNat_offset hx, h.toNat_offset hy]
  omega

theorem offset_add_size (x : Nat) : offset page x + size = offset page (x + size.toNat) := by
  rw [offset, offset, ofNat_add, ofNat_toNat, setWidth_eq, add_assoc]

theorem offset_sub_size (x : Nat) : offset page (x + size.toNat) - size = offset page x := by
  rw [← offset_add_size, add_sub_cancel]

/-! ## The loop that joins the blocks -/

theorem joinLoop_spec (hpage : IsPage page) (hsize : 1 ≤ size.toNat) (hlast : m * size.toNat ≤ 0xFF8)
    (hnext : 0xFF8 < (m + 1) * size.toNat) (hend : size.toNat ≤ 0xFF8) {j : Nat} (hj : j ≤ m) (hfuel : m - j < fuel)
    (w : Words) :
    ∃ w', joinLoop size (offset page 0xFF8) fuel w (offset page (j * size.toNat)) =
        some (w', offset page (m * size.toNat)) ∧
      (∀ i, j ≤ i → i ≤ m → w' (offset page (i * size.toNat)) = offset page ((i + 1) * size.toNat)) ∧
      ∀ a, (∀ i, j ≤ i → i ≤ m → a ≠ offset page (i * size.toNat)) → w' a = w a := by
  induction fuel generalizing j w with
  | zero => omega
  | succ fuel ih =>
    have hbound {i : Nat} (hi : i ≤ m) : i * size.toNat ≤ 0xFF8 := le_trans (Nat.mul_le_mul_right _ hi) hlast
    have hstep : offset page (j * size.toNat) + size = offset page ((j + 1) * size.toNat) := by
      rw [offset_add_size, Nat.succ_mul]
    have hj' : (j + 1) * size.toNat < 0x2000 := by
      have := hbound hj
      rw [Nat.succ_mul]
      omega
    simp only [joinLoop, hstep, hpage.offset_le_iff hj' (show 0xFF8 < 0x2000 by decide)]
    rcases Nat.lt_or_eq_of_le hj with hlt | rfl
    · -- The next block starts at or before the service double words.
      obtain ⟨w', heq, hjoin, hother⟩ := ih (j := j + 1) (by omega) (by omega)
        (update w (offset page (j * size.toNat)) (offset page ((j + 1) * size.toNat)))
      rw [if_pos (hbound (by omega)), heq]
      have hne {i : Nat} (hi : j + 1 ≤ i) (him : i ≤ m) : offset page (j * size.toNat) ≠ offset page (i * size.toNat) := by
        have hlt : j * size.toNat < i * size.toNat := Nat.mul_lt_mul_of_pos_right (by omega) (by omega)
        have := hbound him
        rw [Ne, hpage.offset_inj (by omega) (by omega)]
        omega
      refine ⟨w', rfl, ?_, ?_⟩
      · intro i hi him
        rcases Nat.lt_or_eq_of_le hi with hi | rfl
        · exact hjoin i hi him
        · rw [hother _ fun i hi him => hne hi him, update_self]
      · intro a ha
        rw [hother a fun i hi him => ha i (by omega) him, update_of_ne (ha j (le_refl _) hj)]
    · rw [if_neg (by omega)]
      refine ⟨_, rfl, ?_, ?_⟩
      · intro i hi him
        obtain rfl : i = j := by omega
        rw [update_self]
      · intro a ha
        exact update_of_ne (ha j (le_refl _) (le_refl _)) _ _

theorem initPage_spec (hpage : IsPage page) (hsize : 4 ≤ size.toNat ∧ size.toNat ≤ 0xFF8) (w : Words) :
    ∃ w', initPage size page w = some w' ∧ (∀ i, 1 ≤ i → i + 1 < 0xFF8 / size.toNat →
        w' (offset page (i * size.toNat)) = offset page ((i + 1) * size.toNat)) ∧
      w' (offset page ((0xFF8 / size.toNat - 1) * size.toNat)) = 0 ∧
      w' (offset page 0xFF8) =
        if size.toNat ∣ 0xFF8 then offset page (0xFF8 + size.toNat) else offset page size.toNat := by
  obtain ⟨hfour, hfits⟩ := hsize
  obtain ⟨m, hm⟩ : ∃ m, 0xFF8 / size.toNat = m + 1 :=
    Nat.exists_eq_succ_of_ne_zero (Nat.div_pos hfits (by omega)).ne'
  have hlast : (m + 1) * size.toNat ≤ 0xFF8 := by
    rw [← hm]
    exact Nat.div_mul_le_self _ _
  have hnext : 0xFF8 < (m + 1 + 1) * size.toNat := by
    rw [← hm, Nat.mul_comm]
    exact Nat.lt_mul_div_succ _ (by omega)
  have hrounds : m + 1 - 1 < 1024 := by
    have : (m + 1) * 4 ≤ (m + 1) * size.toNat := Nat.mul_le_mul_left _ hfour
    omega
  have hbefore : m * size.toNat < (m + 1) * size.toNat := by
    rw [Nat.succ_mul]
    omega
  obtain ⟨w', hloop, hjoin, hother⟩ := joinLoop_spec hpage (by omega) hlast hnext hfits (j := 1) (by omega) hrounds
    (update (update w (offset page 0xFF8) (page + size)) (offset page 0xFFC) 0)
  have hinit : initPage size page w = some (update w' (offset page (m * size.toNat)) 0) := by
    have hstart : page + size = offset page (1 * size.toNat) := by
      rw [Nat.one_mul, offset, ofNat_toNat, setWidth_eq]
    have hservice : offset page 0xFF8 + 4#32 = offset page 0xFFC := by
      rw [offset, offset, add_assoc]
      rfl
    rw [hstart] at hloop
    rw [Nat.succ_mul m] at hloop
    change (do
      let (w, ecx) ← joinLoop size (offset page 0xFF8) 1024
        (update (update w (offset page 0xFF8) (page + size)) (offset page 0xFF8 + 4#32) 0) (page + size)
      some (update w (ecx - size) 0)) = _
    rw [hservice, hstart, hloop]
    simp [bind_eq_bind, offset_sub_size]
  have hne : offset page 0xFF8 ≠ offset page (m * size.toNat) := by
    rw [Ne, hpage.offset_inj (by omega) (by omega)]
    omega
  refine ⟨_, hinit, ?_, ?_, ?_⟩
  · intro i hi him
    have hlt : i * size.toNat < m * size.toNat := Nat.mul_lt_mul_of_pos_right (by omega) (by omega)
    rw [update_of_ne, hjoin i hi (by omega)]
    rw [Ne, hpage.offset_inj (by omega) (by omega)]
    omega
  · rw [hm, Nat.add_sub_cancel, update_self]
  · rw [update_of_ne hne]
    split_ifs with hdvd
    · -- The last round of the loop writes to the head.
      have hhead : (m + 1) * size.toNat = 0xFF8 := by rw [← hm, Nat.div_mul_cancel hdvd]
      have hwrite := hjoin (m + 1) (by omega) (le_refl _)
      rw [Nat.succ_mul (m + 1), hhead] at hwrite
      exact hwrite
    rw [hother, update_of_ne, update_self, offset, ofNat_toNat, setWidth_eq]
    · rw [Ne, hpage.offset_inj (by decide) (by decide)]
      decide
    · intro i hi him heq
      have hle : i * size.toNat ≤ (m + 1) * size.toNat := Nat.mul_le_mul_right _ him
      rw [hpage.offset_inj (by decide) (by omega)] at heq
      exact hdvd (heq ▸ Nat.dvd_mul_left _ _)

/-! ## The blocks of a new page -/

def Disjoint (size a b : BitVec 32) : Prop :=
  a.toNat + size.toNat ≤ b.toNat ∨ b.toNat + size.toNat ≤ a.toNat

/-- The blocks do not meet, lie before the service double words and are as many as fit. -/
def Layout (size page : BitVec 32) (w : Words) : Prop :=
  ∃ free, FreeList w page free ∧ (page :: free).Pairwise (Disjoint size) ∧
    (∀ b ∈ page :: free, page.toNat ≤ b.toNat ∧ b.toNat + size.toNat ≤ page.toNat + 0xFF8) ∧
    (page :: free).length = 0xFF8 / size.toNat

theorem leads_blocks (hpage : IsPage page) (hlast : m * size.toNat < 0x2000)
    (hjoin : ∀ i, 1 ≤ i → i < m → w (offset page (i * size.toNat)) = offset page ((i + 1) * size.toNat))
    (hend : w (offset page (m * size.toNat)) = 0) {i n : Nat} (hi : 1 ≤ i) (hn : i + n = m + 1) (hin : 1 ≤ n) :
    Leads w (· ≠ 0) (offset page (i * size.toNat))
      ((List.range' i n).map fun k => offset page (k * size.toNat)) 0 := by
  induction n generalizing i with
  | zero => omega
  | succ n ih =>
    have hle : i * size.toNat ≤ m * size.toNat := Nat.mul_le_mul_right _ (by omega)
    rw [List.range'_succ, List.map_cons]
    refine .step (hpage.offset_ne_zero (by omega)) ?_
    rcases Nat.eq_zero_or_pos n with rfl | hpos
    · obtain rfl : i = m := by omega
      rw [hend]
      exact .stop (by simp)
    · rw [hjoin i hi (by omega)]
      exact ih (by omega) (by omega) hpos

theorem head_inside (hlayout : Layout size page w) (hne : w (page + 0xFF8#32) ≠ 0) :
    (w (page + 0xFF8#32)).toNat + size.toNat ≤ page.toNat + 0xFF8 := by
  obtain ⟨free, hfree, -, hinside, -⟩ := hlayout
  exact (hinside _ (List.mem_cons_of_mem _ (hfree.head_mem hne))).2

theorem initPage_layout_iff (hpage : IsPage page) (hsize : 4 ≤ size.toNat ∧ size.toNat ≤ 0xFF8) (w : Words) :
    ∃ w', initPage size page w = some w' ∧ (Layout size page w' ↔ 2 * size.toNat ≤ 0xFF8 ∧ ¬ size.toNat ∣ 0xFF8) := by
  obtain ⟨w', hinit, hjoin, hend, hhead⟩ := initPage_spec hpage hsize w
  refine ⟨w', hinit, ?_⟩
  constructor
  · intro hlayout
    have hinside := head_inside hlayout
    rw [show w' (page + 0xFF8#32) = _ from hhead] at hinside
    split_ifs at hinside with hdvd
    · -- The head leads behind the page.
      have hbehind := hinside (hpage.offset_ne_zero (by omega))
      rw [hpage.toNat_offset (by omega)] at hbehind
      omega
    · have hsecond := hinside (hpage.offset_ne_zero (by omega))
      rw [hpage.toNat_offset (by omega)] at hsecond
      exact ⟨by omega, hdvd⟩
  rintro ⟨htwo, hdvd⟩
  rw [if_neg hdvd] at hhead
  obtain ⟨m, hm⟩ : ∃ m, 0xFF8 / size.toNat = m + 2 :=
    Nat.exists_eq_add_of_le' ((Nat.le_div_iff_mul_le (by omega)).mpr htwo)
  have hlast : (m + 2) * size.toNat ≤ 0xFF8 := by
    rw [← hm]
    exact Nat.div_mul_le_self _ _
  have hbound {k : Nat} (hk : k < m + 2) : k * size.toNat + size.toNat ≤ 0xFF8 := by
    rw [← Nat.succ_mul]
    exact le_trans (Nat.mul_le_mul_right _ hk) hlast
  have hall : page :: (List.range' 1 (m + 1)).map (fun k => offset page (k * size.toNat)) =
      (List.range' 0 (m + 2)).map fun k => offset page (k * size.toNat) := by
    rw [List.range'_succ (s := 0), List.map_cons, Nat.zero_mul]
    congr 1
    exact (add_zero page).symm
  rw [hm] at hjoin hend
  refine ⟨(List.range' 1 (m + 1)).map fun k => offset page (k * size.toNat), ?_, ?_, ?_, ?_⟩
  · have hlead := leads_blocks hpage (m := m + 1) (by have := @hbound (m + 1) (by omega); omega)
      (fun i hi him => hjoin i hi (by omega)) hend (i := 1) (n := m + 1) (le_refl _) (by omega) (by omega)
    rw [Nat.one_mul, ← hhead] at hlead
    exact hlead
  · rw [hall, List.pairwise_map]
    refine List.Pairwise.imp_of_mem ?_ List.pairwise_lt_range'
    intro i j hi hj hij
    have hi' := @hbound i (by simpa using hi)
    have hj' := @hbound j (by simpa using hj)
    have hle : (i + 1) * size.toNat ≤ j * size.toNat := Nat.mul_le_mul_right _ hij
    rw [Disjoint, hpage.toNat_offset (by omega), hpage.toNat_offset (by omega)]
    rw [Nat.succ_mul] at hle
    omega
  · rw [hall, List.forall_mem_map]
    intro k hk
    have hk' := @hbound k (by simpa using hk)
    rw [hpage.toNat_offset (by omega)]
    omega
  · rw [hall, hm]
    simp

/-- At least two blocks fit, and their size does not divide the 4088 bytes. -/
theorem slab_page_layout_iff (hpage : IsPage page) (hsize : size.toNat % 4 = 0 ∧ 4 ≤ size.toNat ∧ size.toNat ≤ 0xFF8)
    {fuel : Nat} {pool edx : BitVec 32} {w : Words} (hfull : findPage w fuel pool = some (.inr edx)) :
    ∃ w', slabAlloc fuel size pool page w = some (page, w') ∧
      (Layout size page w' ↔ 2 * size.toNat ≤ 0xFF8 ∧ ¬ size.toNat ∣ 0xFF8) := by
  obtain ⟨w', hinit, hlayout⟩ := initPage_layout_iff hpage hsize.2 (update w (edx - 4#32) page)
  exact ⟨w', by rw [slabAlloc_newPage hpage.ne_zero hfull, hinit]; rfl, hlayout⟩

theorem slab_page_layout_32 : ∃ w', slabAlloc 1 32#32 0x80010000#32 0x80200000#32 (fun _ => 0) = some (0x80200000#32, w') ∧
    Layout 32#32 0x80200000#32 w' := by
  obtain ⟨w', halloc, hlayout⟩ := @slab_page_layout_iff 0x80200000#32 32#32 ⟨by decide, by decide⟩ (by decide) 1
    0x80010000#32 0x80010000#32 (fun _ => 0) rfl
  exact ⟨w', halloc, hlayout.mpr (by decide)⟩

/-- Blocks of 2044 bytes: the second one is never handed out. -/
theorem slab_page_layout_2044 : ¬ ∀ (size page pool edx : BitVec 32) (fuel : Nat) (w : Words), IsPage page →
    size.toNat % 4 = 0 ∧ 4 ≤ size.toNat ∧ size.toNat ≤ 0xFF8 → findPage w fuel pool = some (.inr edx) →
      ∃ w', slabAlloc fuel size pool page w = some (page, w') ∧ Layout size page w' := by
  intro h
  have hpage : IsPage 0x80200000#32 := ⟨by decide, by decide⟩
  have hfull : findPage (fun _ => 0) 1 0x80010000#32 = some (.inr 0x80010000#32) := rfl
  obtain ⟨w', halloc, hlayout⟩ := h 2044#32 0x80200000#32 0x80010000#32 _ 1 _ hpage (by decide) hfull
  obtain ⟨w'', hinit, hiff⟩ := @initPage_layout_iff _ 2044#32 hpage (by decide) (update (fun _ => 0) _ _)
  rw [slabAlloc_newPage hpage.ne_zero hfull, hinit, map_some, Option.some.injEq, Prod.mk.injEq] at halloc
  rw [← halloc.2] at hlayout
  exact absurd (hiff.mp hlayout) (by decide)

end Kolibri.Slab
