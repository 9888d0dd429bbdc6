import Kolibri.Bitmap.Proofs
import Kolibri.Lib.Pool

/-! # Runs of the page allocator

Any interleaving of the four calls on one bitmap moves a pool of pages (`Lib/Pool.lean`).
-/

namespace Kolibri.Bitmap

open Run Pool

inductive Op
  | allocPage
  | allocPages (count : BitVec 32)
  | freePage (phys : BitVec 32)
  | releaseBitmapPageModeB (pageIndex : BitVec 32)
  deriving DecidableEq

/-- One call. The output is the value in `eax`, and 0 for `free_page`, which returns nothing. -/
def step (b : PhysBitmap) : Op → PhysBitmap × BitVec 32
  | .allocPage => allocPage b
  | .allocPages count => allocPages b count
  | .freePage phys => (freePage b phys, 0)
  | .releaseBitmapPageModeB pageIndex => releaseBitmapPageModeB b pageIndex

def Op.released : Op → Option Nat
  | .freePage phys => some (phys.toNat / 4096)
  | .releaseBitmapPageModeB pageIndex => some pageIndex.toNat
  | _ => none

def Op.handed (op : Op) (eax : BitVec 32) : Finset Nat :=
  match op with
  | .allocPage => if eax = 0 then ∅ else {eax.toNat / 4096}
  | .allocPages count =>
    if eax = 0 then ∅
    else Finset.Ico (eax.toNat / 4096) (eax.toNat / 4096 + 8 * ((count.toNat + 7) / 8))
  | _ => ∅

def Op.event (op : Op) (eax : BitVec 32) : Event Nat :=
  match op.released with
  | some p => .give p
  | none => .take (op.handed eax)

/-! ## What every call keeps -/

variable {b b' : PhysBitmap} {page p n off d : Nat} {r : PhysBitmap × BitVec 32} {op : Op} {eax : BitVec 32}

theorem released_start_end (h : Released b page b') : b'.pages = b.pages := by
  rw [PhysBitmap.pages, h.pageEnd, PhysBitmap.pages]

theorem step_start_end (b : PhysBitmap) (op : Op) (hb : b.Bounded) :
    (step b op).1.pageEnd = b.pageEnd ∧ (step b op).1.pageStart.toNat % 4 = 0 := by
  have hstart := hb.start_aligned
  cases op with
  | allocPage =>
    rcases alloc_page_at_spec b hb with h | ⟨p, h⟩
    · exact ⟨h.pageEnd, by rw [step, h.pageStart]; exact hstart⟩
    · exact ⟨h.pageEnd, by rw [step, h.pageStart]; omega⟩
  | allocPages count =>
    rw [step]
    rcases alloc_pages_cases b count with h | ⟨off, -, -, -, h⟩ <;> rw [h] <;> exact ⟨rfl, hstart⟩
  | freePage phys =>
    obtain ⟨h, hcursor⟩ := free_page_spec b phys
    exact ⟨h.pageEnd, by rw [step, hcursor]; omega⟩
  | releaseBitmapPageModeB page =>
    obtain ⟨h, hcursor⟩ := release_bitmap_page_mode_b_spec b page
    exact ⟨h.pageEnd, by rw [step, hcursor]; exact hstart⟩

theorem step_pages (b : PhysBitmap) (op : Op) (hb : b.Bounded) : (step b op).1.pages = b.pages := by
  rw [PhysBitmap.pages, (step_start_end b op hb).1, PhysBitmap.pages]

theorem step_valid (b : PhysBitmap) (op : Op) (hb : b.Valid) : (step b op).1.Valid ∧ (step b op).1.pages = b.pages :=
  ⟨hb.of_end (step_start_end b op hb.bounded).1 (step_start_end b op hb.bounded).2, step_pages b op hb.bounded⟩

/-! ## The pool -/

theorem freePages_of_released (h : Released b p b') (hp : p < b.pages) : b'.freePages = insert p b.freePages := by
  ext q
  rw [Finset.mem_insert, mem_freePages, mem_freePages, released_start_end h, h.free]
  simp only [Bool.or_eq_true, decide_eq_true_eq]
  constructor
  · rintro ⟨hlt, hq | rfl⟩
    · exact .inr ⟨hlt, hq⟩
    · exact .inl rfl
  · rintro (rfl | ⟨hlt, hq⟩)
    · exact ⟨hp, .inr rfl⟩
    · exact ⟨hlt, .inl hq⟩

theorem freePages_of_taken {T : Finset Nat} (hend : b'.pageEnd = b.pageEnd)
    (hfree : ∀ q, b'.free q = (b.free q && decide (q ∉ T))) : b'.freePages = b.freePages \ T := by
  ext q
  rw [Finset.mem_sdiff, mem_freePages, mem_freePages, hfree, PhysBitmap.pages, hend, PhysBitmap.pages]
  simp [and_assoc]

theorem freePages_of_noPage (h : NoPage b r) : r.1.freePages = b.freePages := by
  ext q
  rw [mem_freePages, mem_freePages, PhysBitmap.pages, h.pageEnd, PhysBitmap.pages, PhysBitmap.free,
    h.map, PhysBitmap.free]

theorem freePages_of_tookPage (h : TookPage b p r) : r.1.freePages = b.freePages \ {p} := by
  apply freePages_of_taken h.pageEnd
  simpa using h.free

theorem freePages_of_tookRun (h : TookRun b off n r) :
    r.1.freePages = b.freePages \ Finset.Ico (8 * off) (8 * (off + n)) := by
  apply freePages_of_taken h.pageEnd
  simpa [Finset.mem_Ico] using h.free

theorem tookRun_subset (h : TookRun b off n r) : Finset.Ico (8 * off) (8 * (off + n)) ⊆ b.freePages := by
  intro q hq
  rw [Finset.mem_Ico] at hq
  exact h.mem q hq.1 hq.2

theorem ret_ne_zero {r : BitVec 32} (h : r.toNat = 4096 * p) (hp : p ≠ 0) : r ≠ 0 := by
  rintro rfl
  simp at h
  omega

def Op.Inside (n : Nat) (op : Op) : Prop := ∀ p, op.released = some p → p < n

def Op.InsideNonzero (n : Nat) (op : Op) : Prop := ∀ p, op.released = some p → p < n ∧ p ≠ 0

theorem Op.InsideNonzero.inside (h : op.InsideNonzero n) : op.Inside n :=
  fun p hp => (h p hp).1

theorem step_moves (b : PhysBitmap) (op : Op) (hb : b.Valid) (h0 : b.free 0 = false)
    (hop : op.Inside b.pages) :
    Moves b.freePages (op.event (step b op).2) (step b op).1.freePages := by
  have hne : ∀ p ∈ b.freePages, p ≠ 0 := by
    rintro p hp rfl
    rw [mem_freePages, h0] at hp
    exact Bool.noConfusion hp.2
  cases op with
  | allocPage =>
    simp only [step]
    simp only [Op.event, Op.released, Op.handed]
    rcases alloc_page_spec b hb with h | ⟨p, h⟩
    · rw [if_pos h.ret]
      exact ⟨Finset.empty_subset _, by rw [Finset.sdiff_empty]; exact freePages_of_noPage h⟩
    · rw [if_neg (ret_ne_zero h.ret (hne p h.mem)), h.ret, Nat.mul_div_cancel_left p (by omega)]
      exact ⟨Finset.singleton_subset_iff.mpr h.mem, freePages_of_tookPage h⟩
  | allocPages count =>
    simp only [step]
    simp only [Op.event, Op.released, Op.handed]
    rcases alloc_pages_spec b hb count with h | ⟨off, h⟩
    · rw [if_pos (by rw [h])]
      refine ⟨Finset.empty_subset _, ?_⟩
      rw [Finset.sdiff_empty, h]
    · have hpos := h.pos
      have hoff : 8 * off ≠ 0 := hne (8 * off) (h.mem (8 * off) (le_refl _) (by omega))
      rw [if_neg (ret_ne_zero h.ret hoff), h.ret, Nat.mul_div_cancel_left _ (by omega), ← Nat.mul_add]
      exact ⟨tookRun_subset h, freePages_of_tookRun h⟩
  | freePage phys =>
    exact freePages_of_released (free_page_spec b phys).1 (hop _ rfl)
  | releaseBitmapPageModeB page =>
    exact freePages_of_released (release_bitmap_page_mode_b_spec b page).1 (hop _ rfl)

theorem step_keeps_page_zero (b : PhysBitmap) (op : Op) (hb : b.Valid) (h0 : b.free 0 = false)
    (hop : op.InsideNonzero b.pages) : (step b op).1.free 0 = false := by
  cases op with
  | allocPage =>
    simp only [step]
    rcases alloc_page_spec b hb with h | ⟨p, h⟩
    · rw [PhysBitmap.free, h.map]; exact h0
    · rw [h.free, h0, Bool.false_and]
  | allocPages count =>
    simp only [step]
    rcases alloc_pages_spec b hb count with h | ⟨off, h⟩
    · rw [h]; exact h0
    · rw [h.free, h0, Bool.false_and]
  | freePage phys =>
    have hne := (hop _ rfl).2
    simp only [step, (free_page_spec b phys).1.free, h0, Bool.false_or, decide_eq_false_iff_not]
    exact hne.symm
  | releaseBitmapPageModeB page =>
    have hne := (hop _ rfl).2
    simp only [step, (release_bitmap_page_mode_b_spec b page).1.free, h0, Bool.false_or, decide_eq_false_iff_not]
    exact hne.symm

def PoolInv (n : Nat) (b : PhysBitmap) : Prop := b.Valid ∧ b.free 0 = false ∧ b.pages = n

theorem step_poolInv (n : Nat) (b : PhysBitmap) (op : Op) (hb : PoolInv n b) (hop : op.InsideNonzero n) :
    PoolInv n (step b op).1 := by
  obtain ⟨hv, h0, rfl⟩ := hb
  obtain ⟨hv', hpages⟩ := step_valid b op hv
  exact ⟨hv', step_keeps_page_zero b op hv h0 hop, hpages⟩

theorem trace_moves (b : PhysBitmap) (ops : List Op) (hb : b.Valid) (h0 : b.free 0 = false)
    (hops : ∀ op ∈ ops, op.InsideNonzero b.pages) :
    ∀ c ∈ trace step b ops, Moves c.before.freePages (c.input.event c.output) c.after.freePages := by
  intro c hc
  obtain ⟨hinv, hok, hstep⟩ := trace_inv (fun s op hs hop => step_poolInv b.pages s op hs hop)
    (show PoolInv b.pages b from ⟨hb, h0, rfl⟩) (allowed_of_forall b hops) c hc
  obtain ⟨hv, h0', hpages⟩ := hinv
  have hmoves := step_moves c.before c.input hv h0' (by rw [hpages]; exact hok.inside)
  rw [hstep] at hmoves
  exact hmoves

theorem event_taken (op : Op) (eax : BitVec 32) : (op.event eax).taken = op.handed eax := by
  cases op <;> rfl

theorem event_give (h : op.event eax = .give p) : op.released = some p := by
  unfold Op.event at h
  cases hrel : op.released with
  | none => simp [hrel] at h
  | some q =>
    simp only [hrel, Event.give.injEq] at h
    rw [h]

theorem mem_handed_page (h : eax ≠ 0) : eax.toNat / 4096 ∈ Op.allocPage.handed eax := by
  rw [Op.handed, if_neg h]
  exact Finset.mem_singleton_self _

theorem mem_handed_run {count : BitVec 32} (h : eax ≠ 0) {k : Nat} (hk : k < 8 * ((count.toNat + 7) / 8)) :
    eax.toNat / 4096 + k ∈ (Op.allocPages count).handed eax := by
  rw [Op.handed, if_neg h, Finset.mem_Ico]
  omega

theorem free_of_handed (h : Moves b.freePages (op.event eax) b'.freePages) (hpages : b'.pages = b.pages)
    (hp : p ∈ op.handed eax) : b.free p = true ∧ b'.free p = false := by
  rw [← event_taken] at hp
  obtain ⟨hin, hout⟩ := moves_taken_free h hp
  rw [mem_freePages] at hin hout
  rw [hpages] at hout
  refine ⟨hin.2, ?_⟩
  by_contra hfree
  exact hout ⟨hin.1, by simpa using hfree⟩

/-- **No double allocation.** A page that is handed out again was released in between. -/
theorem no_double_allocation (b : PhysBitmap) (ops : List Op) (hb : b.Valid) (h0 : b.free 0 = false)
    (hops : ∀ op ∈ ops, op.InsideNonzero b.pages) :
    (∀ c ∈ trace step b ops, c.input = .allocPage → c.output ≠ 0 →
      c.before.free (c.output.toNat / 4096) = true ∧ c.after.free (c.output.toNat / 4096) = false) ∧
    (∀ c ∈ trace step b ops, ∀ count, c.input = .allocPages count → c.output ≠ 0 → ∀ k < 8 * ((count.toNat + 7) / 8),
        c.before.free (c.output.toNat / 4096 + k) = true ∧
        c.after.free (c.output.toNat / 4096 + k) = false) ∧
    ∀ (i j : Nat) (_ : i < j) (_ : j < (trace step b ops).length) (p : Nat),
      p ∈ (trace step b ops)[i].input.handed (trace step b ops)[i].output →
      p ∈ (trace step b ops)[j].input.handed (trace step b ops)[j].output →
      ∃ k, ∃ _ : k < (trace step b ops).length, i < k ∧ k < j ∧ (trace step b ops)[k].input.released = some p := by
  have hmoves := trace_moves b ops hb h0 hops
  have hfree : ∀ c ∈ trace step b ops, ∀ p ∈ c.input.handed c.output,
      c.before.free p = true ∧ c.after.free p = false := by
    intro c hc p hp
    obtain ⟨hinv, -, hstep⟩ := trace_inv (fun s op hs hop => step_poolInv b.pages s op hs hop)
      (show PoolInv b.pages b from ⟨hb, h0, rfl⟩) (allowed_of_forall b hops) c hc
    have hpages := (step_valid c.before c.input hinv.1).2
    rw [hstep] at hpages
    exact free_of_handed (hmoves c hc) hpages hp
  refine ⟨?_, ?_, ?_⟩
  · intro c hc hin hout
    exact hfree c hc _ (by rw [hin]; exact mem_handed_page hout)
  · intro c hc count hin hout k hk
    exact hfree c hc _ (by rw [hin]; exact mem_handed_run hout hk)
  · intro i j hij hj p hi hp
    rw [← event_taken] at hi hp
    obtain ⟨k, hk, hik, hkj, hgive⟩ :=
      no_double_take step b ops PhysBitmap.freePages (fun c => c.input.event c.output) hmoves
        i j hij hj p hi hp
    exact ⟨k, hk, hik, hkj, event_give hgive⟩

def smallMap : PhysBitmap where
  map := fun i => if 4 ≤ i ∧ i < 8 then 0xFF else 0
  pageStart := 4
  pageEnd := 8
  pagesFree := 32

theorem smallMap_valid : smallMap.Valid := ⟨rfl, rfl, by decide⟩

theorem no_double_allocation_small :
    (trace step smallMap [.allocPage, .allocPages 9, .releaseBitmapPageModeB 32, .allocPage]).map
      (·.output) = [0x20000, 0x28000, 1, 0x20000] ∧
    ∃ k, ∃ _ : k < (trace step smallMap
        [.allocPage, .allocPages 9, .releaseBitmapPageModeB 32, .allocPage]).length, 0 < k ∧ k < 3 ∧
      (trace step smallMap [.allocPage, .allocPages 9, .releaseBitmapPageModeB 32, .allocPage])[k].input.released
        = some 32 := by
  refine ⟨by decide +kernel, ?_⟩
  have hops : ∀ op ∈ [Op.allocPage, .allocPages 9, .releaseBitmapPageModeB 32, .allocPage],
      op.InsideNonzero smallMap.pages := by
    intro op hop p hp
    simp only [List.mem_cons, List.not_mem_nil, or_false] at hop
    rcases hop with rfl | rfl | rfl | rfl <;> simp [Op.released] at hp
    subst hp
    decide
  exact (no_double_allocation smallMap _ smallMap_valid (by decide) hops).2.2 0 3 (by decide) (by decide) 32
    (by decide +kernel) (by decide +kernel)

/-! ## The counter -/

theorem freePages_card_le (b : PhysBitmap) (hb : b.Bounded) : b.freePages.card + 32 ≤ 2 ^ 31 := by
  have hcard : b.freePages.card ≤ (Finset.range b.pages).card := Finset.card_filter_le _ _
  rw [Finset.card_range] at hcard
  obtain ⟨-, hend, hlt⟩ := hb
  unfold PhysBitmap.pages at hcard
  omega

theorem toInt_of_small {x : BitVec 32} (h : x.toNat < 2 ^ 31) : x.toInt = x.toNat := by
  rw [BitVec.toInt_eq_toNat_cond]
  split_ifs with h2
  · rfl
  · omega

theorem released_count (h : Released b page b') (hpage : page < b.pages) (hb : b.Bounded) (hd : d ≤ 1)
    (hc : b.pagesFree.toNat = b.freePages.card + d) :
    b'.pagesFree.toNat = b'.freePages.card + d ∧ b.pagesFree.toNat ≤ b'.pagesFree.toNat := by
  have hle := freePages_card_le b hb
  rw [h.pagesFree, freePages_of_released h hpage, card_give]
  cases hfree : b.free page with
  | true =>
    have hmem : page ∈ b.freePages := by rw [mem_freePages]; exact ⟨hpage, hfree⟩
    simp only [hmem, if_true, BitVec.ofNat_eq_ofNat, BitVec.add_zero, Nat.add_zero]
    omega
  | false =>
    have hmem : page ∉ b.freePages := by rw [mem_freePages, hfree]; simp
    have hone : (b.pagesFree + 1).toNat = b.pagesFree.toNat + 1 := by
      rw [BitVec.toNat_add, Nat.mod_eq_of_lt]
      · rfl
      · show b.pagesFree.toNat + 1 < 2 ^ 32
        omega
    simp only [hmem, if_false, Bool.false_eq_true, hone]
    omega

theorem alloc_pages_takes (b : PhysBitmap) (count : BitVec 32) :
    allocPages b count = (b, 0) ∨ ∃ off n, Finset.Ico (8 * off) (8 * (off + n)) ⊆ b.freePages ∧
        (allocPages b count).1.freePages = b.freePages \ Finset.Ico (8 * off) (8 * (off + n)) ∧
        (allocPages b count).1.pagesFree.toNat + 8 * n = b.pagesFree.toNat ∧ 8 * n + 9 ≤ b.pagesFree.toNat := by
  refine (alloc_pages_cases b count).imp_right fun ⟨off, hrun, _, hbefore, htook⟩ => ⟨off, _, fun p hp => ?_, ?_, ?_,
    hbefore⟩
  · rw [Finset.mem_Ico] at hp
    exact hrun.mem_freePages hp.1 hp.2
  · rw [htook]
    refine freePages_of_taken rfl fun q => ?_
    simp only [Finset.mem_Ico]
    exact clearBytes_bit ..
  · rw [htook]
    exact toNat_sub_charge (by omega)

/-- The one exception is the clamp: `alloc_page` sets the counter to 1 even if it was 0. -/
theorem step_count (b : PhysBitmap) (op : Op) (hb : b.Bounded) (hop : op.Inside b.pages) (hd : d ≤ 1)
    (hc : b.pagesFree.toNat = b.freePages.card + d) :
    ((step b op).1.pagesFree.toNat = (step b op).1.freePages.card + d ∧
      (1 ≤ b.pagesFree.toNat → 1 ≤ (step b op).1.pagesFree.toNat)) ∨
    (b.pagesFree.toNat = 0 ∧ (step b op).1.pagesFree.toNat = (step b op).1.freePages.card + 1) := by
  have hle := freePages_card_le b hb
  have hint : b.pagesFree.toInt = b.pagesFree.toNat := toInt_of_small (by omega)
  cases op with
  | allocPage =>
    simp only [step]
    rcases alloc_page_at_spec b hb with h | ⟨p, h⟩
    · rw [freePages_of_noPage h, h.pagesFree, hint]
      split_ifs with hone
      · -- The clamp: 1 stays 1, and 0 becomes 1.
        have h1 : (1 : BitVec 32).toNat = 1 := rfl
        rw [h1]
        omega
      · left
        exact ⟨hc, id⟩
    left
    have hbefore := h.before
    have hcard := card_take (Finset.singleton_subset_iff.mpr h.mem)
    rw [Finset.card_singleton] at hcard
    have hsub : (b.pagesFree - 1).toNat = b.pagesFree.toNat - 1 := by
      rw [BitVec.toNat_sub_of_le]
      · rfl
      · rw [BitVec.le_def]
        show 1 ≤ b.pagesFree.toNat
        omega
    rw [freePages_of_taken (T := {p}) h.pageEnd (by simpa using h.free), h.pagesFree, hsub]
    omega
  | allocPages count =>
    simp only [step]
    left
    rcases alloc_pages_takes b count with h | ⟨off, n, hmem, hfree, hcount, hbefore⟩
    · rw [h]
      exact ⟨hc, id⟩
    · have hcard := card_take hmem
      rw [Nat.card_Ico] at hcard
      rw [hfree]
      omega
  | freePage phys =>
    left
    obtain ⟨hcount, hmono⟩ := released_count (free_page_spec b phys).1 (hop _ rfl) hb hd hc
    exact ⟨hcount, fun h1 => h1.trans hmono⟩
  | releaseBitmapPageModeB page =>
    left
    obtain ⟨hcount, hmono⟩ :=
      released_count (release_bitmap_page_mode_b_spec b page).1 (hop _ rfl) hb hd hc
    exact ⟨hcount, fun h1 => h1.trans hmono⟩

def CountInv (n : Nat) (b : PhysBitmap) : Prop :=
  b.Valid ∧ b.pages = n ∧ b.pagesFree.toNat = b.freePages.card ∧ 1 ≤ b.pagesFree.toNat

theorem step_countInv (n : Nat) (b : PhysBitmap) (op : Op) (hb : CountInv n b) (hop : op.Inside n) :
    CountInv n (step b op).1 := by
  obtain ⟨hv, rfl, hc, h1⟩ := hb
  obtain ⟨hv', hpages⟩ := step_valid b op hv
  rcases step_count b op hv.bounded hop (Nat.zero_le 1) hc with ⟨hc', hpos⟩ | ⟨h0, -⟩
  · exact ⟨hv', hpages, hc', hpos h1⟩
  · omega

/-- **The counter is right.** It counts the free pages after every run, and never falls below 1. -/
theorem pages_free_counts (b : PhysBitmap) (ops : List Op) (hb : b.Valid)
    (hc : b.pagesFree.toNat = b.freePages.card) (h1 : 1 ≤ b.pagesFree.toNat)
    (hops : ∀ op ∈ ops, op.Inside b.pages) :
    (final step b ops).pagesFree.toNat = (final step b ops).freePages.card ∧
    1 ≤ (final step b ops).pagesFree.toNat := by
  have hinv : CountInv b.pages (final step b ops) :=
    final_inv (fun s op => step_countInv b.pages s op) ⟨hb, rfl, hc, h1⟩ (allowed_of_forall b hops)
  exact hinv.2.2

theorem pages_free_counts_small :
    (final step smallMap [.allocPages 9, .freePage 0, .freePage 0, .allocPage]).freePages.card = 16 ∧
    (final step smallMap [.allocPages 9, .freePage 0, .freePage 0, .allocPage]).pagesFree.toNat =
      (final step smallMap [.allocPages 9, .freePage 0, .freePage 0, .allocPage]).freePages.card := by
  refine ⟨by decide +kernel, ?_⟩
  refine (pages_free_counts smallMap _ smallMap_valid (by decide +kernel) (by decide) ?_).1
  intro op hop p hp
  simp only [List.mem_cons, List.not_mem_nil, or_false] at hop
  rcases hop with rfl | rfl | rfl | rfl <;> simp [Op.released] at hp <;> subst hp <;> decide

/-! ## The cursor -/

def CursorLow (b : PhysBitmap) : Prop := ∀ p ∈ b.freePages, b.pageStart.toNat ≤ p / 8

/-- A mode B release does not free a page below the cursor. The other calls are not limited. -/
def CursorOk (b : PhysBitmap) (op : Op) : Prop :=
  match op with
  | .releaseBitmapPageModeB page => b.pageStart.toNat ≤ page.toNat / 8 ∨ b.free page.toNat = true
  | _ => True

theorem step_cursorLow (b : PhysBitmap) (op : Op) (hb : b.Valid) (hlow : CursorLow b)
    (hop : op.Inside b.pages) (hok : CursorOk b op) : CursorLow (step b op).1 := by
  intro q hq
  cases op with
  | allocPage =>
    simp only [step] at hq ⊢
    rcases alloc_page_spec b hb with h | ⟨p, h⟩
    · rw [freePages_of_noPage h] at hq
      rw [h.pageStart]
      exact hlow q hq
    -- The cursor moves to the dword of the lowest free page.
    rw [freePages_of_tookPage h, Finset.mem_sdiff] at hq
    have hpq := h.lowest q hq.1 (hlow q hq.1)
    rw [h.pageStart]
    omega
  | allocPages count =>
    simp only [step] at hq ⊢
    rcases alloc_pages_spec b hb count with h | ⟨off, h⟩
    · rw [h] at hq ⊢
      exact hlow q hq
    · rw [freePages_of_tookRun h, Finset.mem_sdiff] at hq
      rw [h.pageStart]
      exact hlow q hq.1
  | freePage phys =>
    simp only [step] at hq ⊢
    obtain ⟨h, hstart⟩ := free_page_spec b phys
    rw [freePages_of_released h (hop _ rfl), Finset.mem_insert] at hq
    rw [hstart]
    rcases hq with rfl | hq
    · omega
    · have := hlow q hq
      omega
  | releaseBitmapPageModeB page =>
    simp only [step] at hq ⊢
    obtain ⟨h, hstart⟩ := release_bitmap_page_mode_b_spec b page
    have hpage : page.toNat < b.pages := hop _ rfl
    rw [freePages_of_released h hpage, Finset.mem_insert] at hq
    rw [hstart]
    rcases hq with rfl | hq
    · rcases hok with hle | hfree
      · exact hle
      · exact hlow _ (by rw [mem_freePages]; exact ⟨hpage, hfree⟩)
    · exact hlow q hq

theorem alloc_page_ne_zero_iff (b : PhysBitmap) (hb : b.Valid) (h0 : b.free 0 = false) :
    (allocPage b).2 ≠ 0 ↔ 1 < b.pagesFree.toInt ∧ ∃ p ∈ b.freePages, b.pageStart.toNat ≤ p / 8 := by
  rcases alloc_page_spec b hb with h | ⟨p, h⟩
  · constructor
    · intro hret
      exact absurd h.ret hret
    rintro ⟨hone, p, hp, hle⟩
    rcases h.reason with hsmall | hbelow
    · omega
    · have := hbelow p hp
      omega
  have hp0 : p ≠ 0 := by
    rintro rfl
    have hmem := h.mem
    rw [mem_freePages, h0] at hmem
    exact Bool.noConfusion hmem.2
  constructor
  · intro _
    exact ⟨h.before, p, h.mem, h.cursor⟩
  · intro _
    exact ret_ne_zero h.ret hp0

/-- The counter of a run from any start: a start at 0 may leave it one above the free pages. -/
def SlackInv (n : Nat) (b : PhysBitmap) : Prop :=
  PoolInv n b ∧ ∃ d ≤ 1, b.pagesFree.toNat = b.freePages.card + d

theorem step_slackInv (n : Nat) (b : PhysBitmap) (op : Op) (hb : SlackInv n b)
    (hop : op.InsideNonzero n) : SlackInv n (step b op).1 := by
  obtain ⟨hpool, d, hd, hc⟩ := hb
  refine ⟨step_poolInv n b op hpool hop, ?_⟩
  obtain ⟨hv, -, rfl⟩ := hpool
  rcases step_count b op hv.bounded hop.inside hd hc with ⟨hc', -⟩ | ⟨-, hc'⟩
  · exact ⟨d, hd, hc'⟩
  · exact ⟨1, le_refl 1, hc'⟩

theorem slackInv_toInt (h : SlackInv n b) : b.pagesFree.toInt = b.pagesFree.toNat := by
  obtain ⟨⟨hv, -, -⟩, d, hd, hc⟩ := h
  have hle := freePages_card_le b hv.bounded
  exact toInt_of_small (by omega)

/-- **Memory is lost only below the cursor**, and if the counter is not above 1. -/
theorem alloc_page_after_run (b : PhysBitmap) (ops : List Op) (hb : b.Valid) (h0 : b.free 0 = false)
    (hlow : CursorLow b) (hc : b.pagesFree.toNat = b.freePages.card)
    (hops : ∀ op ∈ ops, op.InsideNonzero b.pages) :
    ((allocPage (final step b ops)).2 ≠ 0 ↔ 1 < (final step b ops).pagesFree.toNat ∧
      ∃ p ∈ (final step b ops).freePages, (final step b ops).pageStart.toNat ≤ p / 8) ∧
    (Allowed step CursorOk b ops → 1 < (final step b ops).pagesFree.toNat →
      (allocPage (final step b ops)).2 ≠ 0) := by
  have hslack : SlackInv b.pages b := ⟨⟨hb, h0, rfl⟩, 0, Nat.zero_le 1, hc⟩
  have hend : SlackInv b.pages (final step b ops) :=
    final_inv (fun s op => step_slackInv b.pages s op) hslack (allowed_of_forall b hops)
  have hiff := alloc_page_ne_zero_iff (final step b ops) hend.1.1 hend.1.2.1
  rw [slackInv_toInt hend, Nat.one_lt_cast] at hiff
  refine ⟨hiff, fun hcursor hone => hiff.mpr ⟨hone, ?_⟩⟩
  have hlow' : CursorLow (final step b ops) := by
    have hstep : ∀ s op, (SlackInv b.pages s ∧ CursorLow s) → (op.InsideNonzero b.pages ∧ CursorOk s op) →
        SlackInv b.pages (step s op).1 ∧ CursorLow (step s op).1 := by
      rintro s op ⟨hs, hl⟩ ⟨hin, hok⟩
      have hv := hs.1.1
      have hpages := hs.1.2.2
      exact ⟨step_slackInv b.pages s op hs hin, step_cursorLow s op hv hl (by rw [hpages]; exact hin.inside) hok⟩
    exact (final_inv hstep ⟨hslack, hlow⟩ (allowed_and (allowed_of_forall b hops) hcursor)).2
  obtain ⟨d, hd, hcount⟩ := hend.2
  have hpos : 0 < (final step b ops).freePages.card := by omega
  obtain ⟨p, hp⟩ := Finset.card_pos.mp hpos
  exact ⟨p, hp, hlow' p hp⟩

theorem alloc_page_after_run_small :
    (allocPage (final step smallMap [.allocPage, .releaseBitmapPageModeB 40])).2 ≠ 0 := by
  have hops : ∀ op ∈ [Op.allocPage, .releaseBitmapPageModeB 40], op.InsideNonzero smallMap.pages := by
    intro op hop p hp
    simp only [List.mem_cons, List.not_mem_nil, or_false] at hop
    rcases hop with rfl | rfl <;> simp [Op.released] at hp
    subst hp
    decide
  have hcursor : Allowed step CursorOk smallMap [.allocPage, .releaseBitmapPageModeB 40] :=
    ⟨trivial, .inl (by decide +kernel), trivial⟩
  exact (alloc_page_after_run smallMap _ smallMap_valid (by decide) (by unfold CursorLow; decide +kernel)
    (by decide +kernel) hops).2 hcursor (by decide +kernel)

def oneFree : PhysBitmap where
  map := fun i => if i = 4 then 1 else 0
  pageStart := 4
  pageEnd := 8
  pagesFree := 1

/-- Mode B releases of pages 8 and 9 go below the cursor, and `alloc_page` does not find them. -/
theorem release_mode_b_below_cursor :
    CursorLow oneFree ∧ oneFree.pagesFree.toNat = oneFree.freePages.card ∧ oneFree.free 0 = false ∧
    (final step oneFree
      [.releaseBitmapPageModeB 8, .releaseBitmapPageModeB 9, .allocPage]).pagesFree.toNat = 2 ∧
    (final step oneFree
      [.releaseBitmapPageModeB 8, .releaseBitmapPageModeB 9, .allocPage]).freePages = {8, 9} ∧
    (allocPage (final step oneFree
      [.releaseBitmapPageModeB 8, .releaseBitmapPageModeB 9, .allocPage])).2 = 0 := by
  unfold CursorLow
  decide +kernel

end Kolibri.Bitmap
