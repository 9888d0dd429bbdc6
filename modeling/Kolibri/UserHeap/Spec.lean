import Kolibri.UserHeap.Code
import Kolibri.Bitmap.Proofs
import Kolibri.Lib.Tiling

/-! # What the user heap means: a row of blocks from `heap_base` to `heap_top` -/

namespace Kolibri.UserHeap

open Tiling Bitmap Paging Function

/-- `fixed` is a used block with `MEM_BLOCK_DONT_FREE`. -/
inductive Kind
  | free
  | used
  | fixed
  deriving DecidableEq

def Kind.flags : Kind → Nat
  | .free => memBlockFree
  | .used => memBlockUsed
  | .fixed => memBlockUsed ||| memBlockDontFree

def hdr (k : Kind) (n : Nat) : Nat := 4096 * n + k.flags

def Block (P : Kind → Nat → Prop) (tabs : Nat → Nat) (x : Nat) (k : Kind) (n : Nat) : Prop :=
  tabs x = hdr k n ∧ ∀ i, x < i → i < x + n → P k (tabs i)

def Row (P : Kind → Nat → Prop) (tabs : Nat → Nat) (a : Nat) (l : List (Kind × Nat)) (b : Nat) : Prop :=
  Tiles (Block P tabs) a l b

/-! ## Headers -/

variable {f x n a c y : Nat} {k : Kind} {l1 l2 mid seg : List (Kind × Nat)} {h : Heap}

theorem or_flags (hx : x % 4096 = 0) (hf : f < 4096) : x ||| f = x + f := by
  obtain ⟨n, rfl⟩ : ∃ n, x = 2 ^ 12 * n := ⟨x / 4096, by omega⟩
  exact (Nat.two_pow_add_eq_or_of_lt hf n).symm

theorem flags_lt (k : Kind) : k.flags < 4096 := by cases k <;> decide

@[simp] theorem hdr_div (k : Kind) (n : Nat) : hdr k n / 4096 = n := by
  have hlt := flags_lt k
  unfold hdr
  omega

@[simp] theorem pageAlign_hdr (k : Kind) (n : Nat) : pageAlign (hdr k n) = 4096 * n := by
  unfold pageAlign
  rw [hdr_div, Nat.mul_comm]

theorem and_flag (n : Nat) (hf : f < 4096) (i : Nat) (hi : i < 12) : (4096 * n + f) &&& 2 ^ i = f &&& 2 ^ i := by
  rw [Nat.and_two_pow, Nat.and_two_pow, show 4096 * n + f = 2 ^ 12 * n + f from rfl,
    Nat.testBit_two_pow_mul_add n hf, if_pos hi]

theorem hdr_and (k : Kind) (n i : Nat) (hi : i < 12) : hdr k n &&& 2 ^ i = k.flags &&& 2 ^ i :=
  and_flag n (flags_lt k) i hi

@[simp] theorem hdr_and_free (k : Kind) (n : Nat) : hdr k n &&& memBlockFree = 0 ↔ k ≠ .free := by
  rw [show memBlockFree = 2 ^ 2 from rfl, hdr_and k n 2 (by decide)]
  cases k <;> decide

@[simp] theorem hdr_and_used (k : Kind) (n : Nat) : hdr k n &&& memBlockUsed = 0 ↔ k = .free := by
  rw [show memBlockUsed = 2 ^ 3 from rfl, hdr_and k n 3 (by decide)]
  cases k <;> decide

@[simp] theorem hdr_and_dontFree (k : Kind) (n : Nat) : hdr k n &&& memBlockDontFree = 0 ↔ k ≠ .fixed := by
  rw [show memBlockDontFree = 2 ^ 4 from rfl, hdr_and k n 4 (by decide)]
  cases k <;> decide

@[simp] theorem hdr_and_reserved (k : Kind) (n : Nat) : hdr k n &&& memBlockReserved = 0 := by
  rw [show memBlockReserved = 2 ^ 1 from rfl, hdr_and k n 1 (by decide)]
  cases k <;> decide

@[simp] theorem hdr_not_present (k : Kind) (n : Nat) : ¬ Present (hdr k n) := by
  unfold Present
  rw [show (1 : Nat) = 2 ^ 0 from rfl, hdr_and k n 0 (by decide)]
  cases k <;> decide

theorem or_free (n : Nat) : 4096 * n ||| memBlockFree = hdr .free n :=
  or_flags (by omega) (by decide)

theorem or_used (n : Nat) : 4096 * n ||| memBlockUsed = hdr .used n :=
  or_flags (by omega) (by decide)

/-! ## Tables -/

theorem fill_apply (tabs : Nat → Nat) {start : Nat} (v : Nat) (hfit : start + n ≤ 2 ^ 30) (i : Nat) :
    fill tabs start n v i = if start ≤ i ∧ i < start + n then v else tabs i := by
  unfold fill
  by_cases hi : start ≤ i ∧ i < start + n
  · rw [if_pos hi, if_pos]
    have hstart : start % 2 ^ 30 = start := Nat.mod_eq_of_lt (by omega)
    rw [hstart, show i + (2 ^ 30 - start) = i - start + 2 ^ 30 by omega, Nat.add_mod_right,
      Nat.mod_eq_of_lt (by omega)]
    omega
  rw [if_neg hi, if_neg]
  rintro ⟨hlt, hmod⟩
  rcases Nat.eq_zero_or_pos n with hn | hn
  · omega
  omega

section Rows

variable {P : Kind → Nat → Prop} {tabs tabs' : Nat → Nat}

theorem block_congr (h : Block P tabs x k n) (hn : 0 < n) (heq : ∀ i, x ≤ i → i < x + n → tabs' i = tabs i) :
    Block P tabs' x k n := by
  refine ⟨?_, fun i hlo hhi => ?_⟩
  · rw [heq x (Nat.le_refl x) (by omega)]
    exact h.1
  · rw [heq i (by omega) hhi]
    exact h.2 i hlo hhi

variable {b : Nat} {l : List (Kind × Nat)}

theorem row_congr (h : Row P tabs a l b) (heq : ∀ i, a ≤ i → i < b → tabs' i = tabs i) : Row P tabs' a l b := by
  refine tiles_mono h fun x k n hx hblk => ?_
  obtain ⟨hn, -, hlo, hhi⟩ := tiles_occurs h hx
  exact block_congr hblk hn fun i h1 h2 => heq i (by omega) (by omega)

theorem row_le (h : Row P tabs a l b) : a + l.length ≤ b :=
  tiles_length_le h

def Live (a : Nat) (l : List (Kind × Nat)) (z : Nat) (k : Kind) (n : Nat) : Prop :=
  Occurs a l z k n ∧ k ≠ .free

@[simp] theorem live_nil (z : Nat) : ¬ Live a [] z k n := fun h => h.1

@[simp] theorem live_free (m z : Nat) : Live a ((.free, m) :: l) z k n ↔ Live (a + m) l z k n := by
  refine ⟨?_, fun h => ⟨.inr h.1, h.2⟩⟩
  rintro ⟨⟨-, rfl, -⟩ | hz, hk⟩
  · exact absurd rfl hk
  · exact ⟨hz, hk⟩

@[simp] theorem live_used (m z : Nat) :
    Live a ((.used, m) :: l) z k n ↔ (z = a ∧ k = .used ∧ n = m) ∨ Live (a + m) l z k n := by
  constructor
  · rintro ⟨⟨rfl, rfl, rfl⟩ | hz, hk⟩
    · exact .inl ⟨rfl, rfl, rfl⟩
    · exact .inr ⟨hz, hk⟩
  · rintro (⟨rfl, rfl, rfl⟩ | hz)
    · exact ⟨.inl ⟨rfl, rfl, rfl⟩, by decide⟩
    · exact ⟨.inr hz.1, hz.2⟩

theorem live_of_used_bit (hquiet : ∀ k e, P k e → e &&& memBlockUsed = 0) (h : Row P tabs a l b) (hlo : a ≤ c)
    (hhi : c < b) (hbit : tabs c &&& memBlockUsed ≠ 0) : ∃ k n, Live a l c k n := by
  obtain ⟨x, k, n, hx, hxc, hcx⟩ := tiles_cover h hlo hhi
  obtain ⟨-, hblock, -, -⟩ := tiles_occurs h hx
  rcases Nat.lt_or_ge x c with hlt | hge
  · exact absurd (hquiet k _ (hblock.2 c hlt hcx)) hbit
  · obtain rfl : x = c := by omega
    refine ⟨k, n, hx, ?_⟩
    rintro rfl
    exact hbit (by rw [hblock.1]; simp)

theorem row_edit (h1 : Row P tabs a l1 x) (hseg : Row P tabs x seg y) (h2 : Row P tabs y l2 b)
    (hmid : Row P tabs' x mid y) (heq : ∀ i, a ≤ i → i < b → i < x ∨ y ≤ i → tabs' i = tabs i) :
    Row P tabs' a (l1 ++ (mid ++ l2)) b ∧ ∀ z k n, Live a (l1 ++ (mid ++ l2)) z k n ↔
      (Live a (l1 ++ (seg ++ l2)) z k n ∧ ¬ Occurs x seg z k n) ∨ Live x mid z k n := by
  have hax := row_le h1
  have hxy := row_le hseg
  have hyb := row_le h2
  have h1' : Row P tabs' a l1 x := row_congr h1 fun i hlo hhi => heq i hlo (by omega) (.inl hhi)
  have h2' : Row P tabs' y l2 b := row_congr h2 fun i hlo hhi => heq i (by omega) hhi (.inr hlo)
  refine ⟨tiles_join h1' hmid h2', fun z k n => ?_⟩
  unfold Live
  rw [occurs_edit h1 hseg h2 h1' hmid]
  tauto

end Rows

/-! ## Heaps -/

/-- The blocks of a heap that `init_heap` has set up. -/
structure Tiled (P : Kind → Nat → Prop) (h : Heap) (l : List (Kind × Nat)) : Prop where
  top : h.heapTop = heapTopAddr
  aligned : h.heapBase % 4096 = 0
  row : Row P h.tabs (h.heapBase / 4096) l topPage

/-- The live blocks at `gone` go, the used blocks `new` come. The others stay as they are. -/
structure Changed (P : Kind → Nat → Prop) (h : Heap) (l : List (Kind × Nat)) (gone : Nat → Prop)
    (new : Nat → Nat → Prop) (h' : Heap) (l' : List (Kind × Nat)) : Prop where
  tiled : Tiled P h' l'
  heapBase : h'.heapBase = h.heapBase
  live : ∀ z k n, Live (h.heapBase / 4096) l' z k n ↔
    (Live (h.heapBase / 4096) l z k n ∧ ¬ gone z) ∨ (k = .used ∧ new z n)
  kept : ∀ z k n, Live (h.heapBase / 4096) l z k n → ¬ gone z → ∀ i, z ≤ i → i < z + n → h'.tabs i = h.tabs i
  outside : ∀ i, i < h.heapBase / 4096 ∨ topPage ≤ i → h'.tabs i = h.tabs i

section Heaps

variable {P : Kind → Nat → Prop} {h h' : Heap} {l l' : List (Kind × Nat)} {tabs : Nat → Nat} {gone : Nat → Prop}
  {new : Nat → Nat → Prop} {e : Nat}

theorem row_length_lt (h : Row P tabs a l topPage) : l.length < walkFuel := by
  have hle := row_le h
  unfold topPage at hle
  unfold walkFuel
  omega

theorem row_head_lt (h : Row P tabs a ((k, n) :: l) topPage) : a + n ≤ 0x80000 ∧ 0 < n := by
  have hle := row_le h.2.2
  have hpos := h.1
  unfold topPage at hle
  omega

theorem Tiled.base_eq (ht : Tiled P h l) : 4096 * (h.heapBase / 4096) = h.heapBase := by
  have haligned := ht.aligned
  omega

theorem Tiled.top_page (ht : Tiled P h l) : h.heapTop / 4096 = topPage := by
  rw [ht.top]
  rfl

theorem Tiled.occurs (ht : Tiled P h l) (hx : Occurs (h.heapBase / 4096) l x k n) :
    0 < n ∧ Block P h.tabs x k n ∧ h.heapBase / 4096 ≤ x ∧ x + n ≤ 0x80000 :=
  tiles_occurs ht.row hx

theorem block_pointer (hx : x < 0x80000) :
    (BitVec.ofNat 32 (4096 * (x + 1))).toNat / 4096 = x + 1 ∧ BitVec.ofNat 32 (4096 * (x + 1)) ≠ 0 := by
  have hpage : (BitVec.ofNat 32 (4096 * (x + 1))).toNat / 4096 = x + 1 := by
    rw [BitVec.toNat_ofNat]
    omega
  refine ⟨hpage, fun hz => ?_⟩
  rw [hz] at hpage
  simp at hpage

theorem Changed.refl (ht : Tiled P h l) : Changed P h l (fun _ => False) (fun _ _ => False) h l where
  tiled := ht
  heapBase := rfl
  live _ _ _ := by tauto
  kept _ _ _ _ _ _ _ _ := rfl
  outside _ _ := rfl

theorem Changed.trans {h'' : Heap} {l'' : List (Kind × Nat)} {gone' gone'' : Nat → Prop}
    {new' new'' : Nat → Nat → Prop} (hc : Changed P h l gone new h' l') (hc' : Changed P h' l' gone' new' h'' l'')
    (hgone : ∀ z k n, Live (h.heapBase / 4096) l z k n → (gone'' z ↔ gone z ∨ gone' z))
    (hnew : ∀ z n, new'' z n ↔ (new z n ∧ ¬ gone' z) ∨ new' z n) : Changed P h l gone'' new'' h'' l'' where
  tiled := hc'.tiled
  heapBase := hc'.heapBase.trans hc.heapBase
  live z k n := by
    have hlive' := hc'.live z k n
    rw [hc.heapBase] at hlive'
    have hgone' := hgone z k n
    rw [hlive', hc.live, hnew]
    tauto
  kept z k n hz hstay i hlo hhi := by
    rw [hgone z k n hz, not_or] at hstay
    have hz' := (hc.live z k n).mpr (.inl ⟨hz, hstay.1⟩)
    rw [hc'.kept z k n (by rwa [hc.heapBase]) hstay.2 i hlo hhi, hc.kept z k n hz hstay.1 i hlo hhi]
  outside i hi := by
    rw [hc'.outside i (by rwa [hc.heapBase]), hc.outside i hi]

theorem tiled_rewrite (ht : Tiled P h l)
    (htabs : ∀ i, h'.tabs i = h.tabs i ∨ (∀ k n, h.tabs i ≠ hdr k n) ∧ ∀ k, P k (h.tabs i) → P k (h'.tabs i))
    (hsame : h'.heapBase = h.heapBase ∧ h'.heapTop = h.heapTop) : Tiled P h' l := by
  refine ⟨hsame.2.trans ht.top, by rw [hsame.1]; exact ht.aligned, ?_⟩
  rw [hsame.1]
  refine tiles_mono ht.row fun x k n hx hblock => ⟨?_, fun i hlo hhi => ?_⟩
  · rcases htabs x with heq | ⟨hno, -⟩
    · rw [heq]
      exact hblock.1
    · exact absurd hblock.1 (hno k n)
  · rcases htabs i with heq | ⟨-, hp⟩
    · rw [heq]
      exact hblock.2 i hlo hhi
    · exact hp k (hblock.2 i hlo hhi)

theorem reserved_ne_hdr (he : e &&& memBlockReserved ≠ 0) (k : Kind) (n : Nat) : e ≠ hdr k n := by
  rintro rfl
  exact he (hdr_and_reserved k n)

theorem present_ne_hdr (he : Present e) (k : Kind) (n : Nat) : e ≠ hdr k n := by
  rintro rfl
  exact hdr_not_present k n he

theorem Tiled.live_unique (ht : Tiled P h l) {n' : Nat} {k' : Kind} (hc : Live (h.heapBase / 4096) l c k n)
    (hc' : Live (h.heapBase / 4096) l c k' n') : k = k' ∧ n = n' := by
  have hpos := (ht.occurs hc.1).1
  have hpos' := (ht.occurs hc'.1).1
  rcases occurs_apart ht.row hc.1 hc'.1 with hle | hle | ⟨-, heq⟩
  · omega
  · omega
  · exact heq

theorem changed_inside (ht : Tiled P h l) (hc : Live (h.heapBase / 4096) l c .used n)
    (hin : ∀ i, c < i → i < c + n → P .used (h'.tabs i)) (hout : ∀ i, i ≤ c ∨ c + n ≤ i → h'.tabs i = h.tabs i)
    (hsame : h'.heapBase = h.heapBase ∧ h'.heapTop = h.heapTop) :
    Changed P h l (fun z => z = c) (fun z m => z = c ∧ m = n) h' l := by
  have hrow : Row P h'.tabs (h.heapBase / 4096) l topPage := by
    refine tiles_mono ht.row fun x k m hx hblock => ?_
    have hpos := (ht.occurs hx).1
    rcases occurs_apart ht.row hc.1 hx with hle | hle | ⟨rfl, rfl, rfl⟩
    · exact block_congr hblock hpos fun i hlo _ => hout i (by omega)
    · exact block_congr hblock hpos fun i _ hhi => hout i (by omega)
    · exact ⟨by rw [hout c (by omega)]; exact hblock.1, hin⟩
  refine ⟨⟨hsame.2.trans ht.top, by rw [hsame.1]; exact ht.aligned, by rw [hsame.1]; exact hrow⟩, hsame.1,
    fun z k m => ?_, fun z k m hz hne i hlo hhi => hout i ?_, fun i hi => hout i ?_⟩
  · constructor
    · intro hz
      by_cases hzc : z = c
      · subst hzc
        obtain ⟨hk, hn⟩ := ht.live_unique hz hc
        exact .inr ⟨hk, rfl, hn⟩
      · exact .inl ⟨hz, hzc⟩
    · rintro (⟨hz, -⟩ | ⟨rfl, rfl, rfl⟩)
      · exact hz
      · exact hc
  · rcases occurs_apart ht.row hc.1 hz.1 with hle | hle | ⟨heq, -⟩
    · omega
    · omega
    · exact absurd heq.symm hne
  · have hocc := ht.occurs hc.1
    unfold topPage at hi
    omega

theorem changed_of_edit (ht : Tiled P h (l1 ++ (seg ++ l2))) (h1 : Row P h.tabs (h.heapBase / 4096) l1 x)
    (hseg : Row P h.tabs x seg y) (h2 : Row P h.tabs y l2 topPage) (hmid : Row P h'.tabs x mid y)
    (hsame : h'.heapBase = h.heapBase ∧ h'.heapTop = h.heapTop) (heq : ∀ i, i < x ∨ y ≤ i → h'.tabs i = h.tabs i)
    (hgone : ∀ z, gone z ↔ ∃ k n, Live x seg z k n) (hnew : ∀ z k n, Live x mid z k n ↔ k = .used ∧ new z n) :
    Changed P h (l1 ++ (seg ++ l2)) gone new h' (l1 ++ (mid ++ l2)) := by
  obtain ⟨hrow, hlive⟩ := row_edit h1 hseg h2 hmid fun i _ _ hi => heq i hi
  have hax := row_le h1
  have hyb := row_le h2
  -- A live block of the segment goes, all the others are apart from it.
  have hstay : ∀ z k n, Live (h.heapBase / 4096) (l1 ++ (seg ++ l2)) z k n →
      (¬ Occurs x seg z k n ↔ ¬ gone z) ∧ (¬ gone z → z + n ≤ x ∨ y ≤ z) := by
    intro z k n ⟨hz, hk⟩
    have hout : z < x ∨ y ≤ z → (¬ Occurs x seg z k n ↔ ¬ gone z) := by
      intro ho
      have hno : ∀ k n, ¬ Occurs x seg z k n := fun k n hs => by
        have hin := tiles_occurs hseg hs
        omega
      exact ⟨fun _ hg => by obtain ⟨k', n', hs, -⟩ := (hgone z).mp hg; exact hno k' n' hs, fun _ => hno k n⟩
    rw [occurs_append h1, occurs_append hseg] at hz
    rcases hz with hz | hz | hz
    · have hin := tiles_occurs h1 hz
      exact ⟨hout (.inl (by omega)), fun _ => .inl hin.2.2.2⟩
    · have hg : gone z := (hgone z).mpr ⟨k, n, hz, hk⟩
      exact ⟨⟨fun hno => absurd hz hno, fun hno => absurd hg hno⟩, fun hno => absurd hg hno⟩
    · have hin := tiles_occurs h2 hz
      exact ⟨hout (.inr hin.2.2.1), fun _ => .inr hin.2.2.1⟩
  refine ⟨⟨hsame.2.trans ht.top, by rw [hsame.1]; exact ht.aligned, by rw [hsame.1]; exact hrow⟩, hsame.1,
    fun z k n => ?_, fun z k n hz hg i hlo hhi => heq i ?_, fun i hi => heq i ?_⟩
  · rw [hlive, hnew]
    constructor
    · rintro (⟨hz, hno⟩ | hz)
      · exact .inl ⟨hz, (hstay z k n hz).1.mp hno⟩
      · exact .inr hz
    · rintro (⟨hz, hno⟩ | hz)
      · exact .inl ⟨hz, (hstay z k n hz).1.mpr hno⟩
      · exact .inr hz
  · rcases (hstay z k n hz).2 hg with hle | hge
    · exact .inl (by omega)
    · exact .inr (by omega)
  · have hxy := row_le hseg
    omega

end Heaps

/-! ## `init_heap` -/

def imagePages (h : Heap) : Nat := (h.memUsed.toNat + 4095) / 4096

theorem init_heap_spec (htop : h.heapTop = 0) (hmem : h.memUsed.toNat ≤ 0x7FFFF000) :
    imagePages h < 0x80000 ∧ (initHeap h).1 = { h with
      memUsed := BitVec.ofNat 32 (4096 * imagePages h)
      heapBase := 4096 * imagePages h
      heapTop := heapTopAddr
      tabs := update h.tabs (imagePages h) (hdr .free (0x80000 - imagePages h)) } := by
  have hbase : pageAlign ((h.memUsed.toNat + 4095) % 2 ^ 32) = 4096 * imagePages h := by
    unfold pageAlign imagePages
    omega
  have hlt : imagePages h < 0x80000 := by
    unfold imagePages
    omega
  have hsize : (heapTopAddr + 2 ^ 32 - 4096 * imagePages h) % 2 ^ 32 = 4096 * (0x80000 - imagePages h) := by
    unfold heapTopAddr
    omega
  refine ⟨hlt, ?_⟩
  unfold initHeap
  rw [if_neg (by rw [htop]; decide)]
  simp only [hbase, hsize, or_free, Nat.mul_div_cancel_left (imagePages h) (by decide : 0 < 4096)]

theorem init_heap_tiled {P : Kind → Nat → Prop} (htop : h.heapTop = 0) (hmem : h.memUsed.toNat ≤ 0x7FFFF000)
    (hfresh : ∀ i, imagePages h < i → i < topPage → P .free (h.tabs i)) :
    Tiled P (initHeap h).1 [(.free, 0x80000 - imagePages h)] := by
  obtain ⟨hlt, heq⟩ := init_heap_spec htop hmem
  rw [heq]
  refine ⟨rfl, Nat.mul_mod_right .., ?_⟩
  rw [Nat.mul_div_cancel_left _ (by decide)]
  refine ⟨by omega, ⟨update_self .., fun i hlo hhi => ?_⟩, ?_⟩
  · dsimp only
    rw [update_of_ne (by omega)]
    exact hfresh i hlo (by unfold topPage; omega)
  · show imagePages h + (0x80000 - imagePages h) = 0x80000
    omega

/-! ## Page faults -/

theorem page_fault_spec (pat pge : Bool) (h : Heap) (page : Nat) :
    (∃ b, pageFault (pteValidMask pat pge) h page = { h with bitmap := b } ∧
      (b = h.bitmap ∨ b = (allocPage h.bitmap).1 ∧ (allocPage h.bitmap).2 = 0)) ∨
    (¬ Present (h.tabs page) ∧ h.tabs page &&& memBlockReserved ≠ 0 ∧ ∃ p, (allocPage h.bitmap).2.toNat = 4096 * p ∧
      0 < p ∧ pageFault (pteValidMask pat pge) h page =
        { h with tabs := update h.tabs page (4096 * p + 7), bitmap := (allocPage h.bitmap).1 }) := by
  unfold pageFault
  by_cases hpresent : Present (h.tabs page)
  · exact .inl ⟨h.bitmap, if_pos hpresent, .inl rfl⟩
  by_cases hres : h.tabs page &&& memBlockReserved = 0
  · refine .inl ⟨h.bitmap, ?_, .inl rfl⟩
    simp only [if_neg hpresent, if_pos hres]
  by_cases hnone : (allocPage h.bitmap).2 = 0
  · refine .inl ⟨(allocPage h.bitmap).1, ?_, .inr ⟨rfl, hnone⟩⟩
    simp only [if_neg hpresent, if_neg hres, if_pos hnone]
  have haligned := alloc_page_aligned h.bitmap
  have hpos : (allocPage h.bitmap).2.toNat ≠ 0 := fun hz => hnone (BitVec.eq_of_toNat_eq hz)
  refine .inr ⟨hpresent, hres, (allocPage h.bitmap).2.toNat / 4096, by omega, by omega, ?_⟩
  simp only [if_neg hpresent, if_neg hres, if_neg hnone, map_page_uwr pat pge haligned,
    show 4096 * ((allocPage h.bitmap).2.toNat / 4096) = (allocPage h.bitmap).2.toNat by omega]

theorem page_entry_bits (p : Nat) : Private (4096 * p + 7) ∧ (4096 * p + 7) &&& memBlockUsed = 0 := by
  have hbit := and_flag p (show 7 < 4096 by decide)
  unfold Private Present Shared
  rw [show (1 : Nat) = 2 ^ 0 from rfl, show 0x200 = 2 ^ 9 from rfl, show memBlockUsed = 2 ^ 3 from rfl,
    hbit 0 (by decide), hbit 9 (by decide), hbit 3 (by decide)]
  decide

end Kolibri.UserHeap
