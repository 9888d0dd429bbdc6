import Kolibri.Bitmap.Spec

/-!
# The Rust allocator computes `Spec.lean`

One spec for each function in `phys_bitmap.rs`.
-/

namespace Kolibri.Bitmap

open Bytes Nat

/-! ## Release -/

variable (b : PhysBitmap) (page : BitVec 32)

theorem bitmap_bts_free_delta_spec :
    (∀ q, ((bitmapBtsFreeDelta page b.map).1 (q / 8)).getLsbD (q % 8) = (b.free q || decide (q = page.toNat))) ∧
    (bitmapBtsFreeDelta page b.map).2 = if b.free page.toNat then 0 else 1 := by
  have hbyte : (page >>> 3).toNat = page.toNat / 8 := by
    simp [BitVec.toNat_ushiftRight, Nat.shiftRight_eq_div_pow]
  have hbit : (page &&& 7).toNat = page.toNat % 8 := by
    rw [BitVec.toNat_and]
    exact Nat.and_two_pow_sub_one_eq_mod page.toNat 3
  have hlt : page.toNat % 8 < 8 := Nat.mod_lt _ (by omega)
  simp only [bitmapBtsFreeDelta, hbyte, hbit]
  constructor
  · intro q
    by_cases hq : q / 8 = page.toNat / 8
    · rw [if_pos hq, ← hq, BitVec.getLsbD_or, PhysBitmap.free]
      congr 1
      have hone : (1#8 <<< (page.toNat % 8)).getLsbD (q % 8) = decide (q % 8 = page.toNat % 8) := by
        have h8 : q % 8 < 8 := Nat.mod_lt _ (by omega)
        interval_cases q % 8 <;> interval_cases page.toNat % 8 <;> rfl
      rw [hone]
      exact decide_eq_decide.mpr ⟨fun h => by omega, fun h => by omega⟩
    · rw [if_neg hq]
      have hne : q ≠ page.toNat := fun h => hq (by rw [h])
      simp [PhysBitmap.free, hne]
  have hold : (b.map (page.toNat / 8) >>> (page.toNat % 8) &&& 1) = 0 ↔ b.free page.toNat = false := by
    rw [PhysBitmap.free]
    constructor
    · intro h
      have h0 := congrArg (fun x : BitVec 8 => x.getLsbD 0) h
      simpa using h0
    intro h
    apply BitVec.eq_of_getLsbD_eq
    intro i hi
    rcases Nat.eq_zero_or_pos i with rfl | hpos
    · simpa using h
    · have h1 : (1#8).getLsbD i = false := by interval_cases i <;> rfl
      simp [h1]
  by_cases h : b.free page.toNat = true
  · rw [if_neg (by rw [hold, h]; simp), if_pos h]
  · rw [if_pos (hold.mpr (by simpa using h)), if_neg h]

structure Released (b : PhysBitmap) (page : Nat) (b' : PhysBitmap) : Prop where
  free : ∀ q, b'.free q = (b.free q || decide (q = page))
  pageEnd : b'.pageEnd = b.pageEnd
  pagesFree : b'.pagesFree = b.pagesFree + if b.free page then 0 else 1

theorem release_bitmap_page_mode_b_spec :
    Released b page.toNat (releaseBitmapPageModeB b page).1 ∧
    (releaseBitmapPageModeB b page).1.pageStart = b.pageStart := by
  obtain ⟨hmap, hdelta⟩ := bitmap_bts_free_delta_spec b page
  refine ⟨⟨hmap, rfl, ?_⟩, rfl⟩
  simp only [releaseBitmapPageModeB, hdelta]
  split_ifs <;> simp_all

theorem dword_off_toNat : ((page >>> 3) &&& ~~~3#32).toNat = page.toNat / 32 * 4 := by
  have h : (page >>> 3) &&& ~~~3#32 = (page >>> 5) <<< 2 := by
    apply BitVec.eq_of_getLsbD_eq
    intro i hi
    have h3 : (3#32).getLsbD i = decide (i < 2) := by interval_cases i <;> rfl
    simp only [BitVec.getLsbD_and, BitVec.getLsbD_ushiftRight, BitVec.getLsbD_not, h3, BitVec.getLsbD_shiftLeft]
    by_cases h2 : i < 2
    · simp [h2]
    · simp [h2, hi, show 3 + i = 5 + (i - 2) by omega]
  rw [h, BitVec.toNat_shiftLeft, BitVec.toNat_ushiftRight, shiftRight_eq_div_pow, shiftLeft_eq]
  omega

theorem free_page_spec (phys : BitVec 32) :
    Released b (phys.toNat / 4096) (freePage b phys) ∧
    (freePage b phys).pageStart.toNat = min b.pageStart.toNat (phys.toNat / 4096 / 32 * 4) := by
  have hpage : (phys >>> 12).toNat = phys.toNat / 4096 := by
    simp [BitVec.toNat_ushiftRight, shiftRight_eq_div_pow]
  obtain ⟨hmap, hdelta⟩ := bitmap_bts_free_delta_spec b (phys >>> 12)
  rw [hpage] at hmap hdelta
  refine ⟨⟨hmap, rfl, ?_⟩, ?_⟩
  · simp only [freePage, hdelta]
    split_ifs <;> simp_all
  have hoff := dword_off_toNat (phys >>> 12)
  simp only [freePage, gt_iff_lt, BitVec.lt_def, hoff]
  split_ifs with h
  · rw [hoff]; omega
  · omega

/-- The pages `S` are given back, in whatever order. -/
structure Gave (b : PhysBitmap) (S : Nat → Prop) (b' : PhysBitmap) : Prop where
  free : ∀ q, b'.free q = true ↔ b.free q = true ∨ S q
  pageEnd : b'.pageEnd = b.pageEnd
  aligned : b.pageStart.toNat % 4 = 0 → b'.pageStart.toNat % 4 = 0

theorem Gave.refl : Gave b (fun _ => False) b := ⟨by simp, rfl, id⟩

theorem Gave.trans {b b' b'' : PhysBitmap} {S T U : Nat → Prop} (h : Gave b S b') (h' : Gave b' T b'')
    (hU : ∀ q, U q ↔ S q ∨ T q) : Gave b U b'' := by
  refine ⟨fun q => ?_, h'.pageEnd.trans h.pageEnd, fun hstart => h'.aligned (h.aligned hstart)⟩
  rw [h'.free, h.free, hU, or_assoc]

theorem Gave.congr {b b' : PhysBitmap} {S T : Nat → Prop} (h : Gave b S b') (hT : ∀ q, T q ↔ S q) : Gave b T b' :=
  ⟨fun q => by rw [h.free, hT], h.pageEnd, h.aligned⟩

theorem Gave.valid {b b' : PhysBitmap} {S : Nat → Prop} (h : Gave b S b') (hb : b.Valid) : b'.Valid :=
  hb.of_end h.pageEnd (h.aligned hb.start_aligned)

theorem free_page_gave (phys : BitVec 32) : Gave b (fun q => q = phys.toNat / 4096) (freePage b phys) := by
  obtain ⟨hfree, hstart⟩ := free_page_spec b phys
  refine ⟨fun q => by simp [hfree.free], hfree.pageEnd, fun haligned => ?_⟩
  rw [hstart]
  omega

theorem release_page_gave : Gave b (fun q => q = page.toNat) (releaseBitmapPageModeB b page).1 := by
  obtain ⟨hfree, hstart⟩ := release_bitmap_page_mode_b_spec b page
  exact ⟨fun q => by simp [hfree.free], hfree.pageEnd, fun haligned => by rw [hstart]; exact haligned⟩

/-! ## One page -/

theorem alloc_page_loop_spec (map : Nat → BitVec 8) (pageEnd : BitVec 32)
    (hend : pageEnd.toNat + 4 < 2 ^ 32) :
    ∀ (fuel : Nat) (ebx : BitVec 32), pageEnd.toNat ≤ ebx.toNat + 4 * fuel →
      match allocPageLoop map pageEnd fuel ebx with
      | some found => ebx.toNat ≤ found.toNat ∧ found.toNat < pageEnd.toNat ∧
          found.toNat % 4 = ebx.toNat % 4 ∧ readU32 map found.toNat ≠ 0 ∧
          ∀ x, ebx.toNat ≤ x → x < found.toNat → x % 4 = ebx.toNat % 4 → readU32 map x = 0
      | none => ∀ x, ebx.toNat ≤ x → x < pageEnd.toNat → x % 4 = ebx.toNat % 4 → readU32 map x = 0 := by
  intro fuel
  induction fuel with
  | zero =>
    intro ebx hfuel x hlo hhi
    omega
  | succ fuel ih =>
    intro ebx hfuel
    unfold allocPageLoop
    by_cases hlt : ebx < pageEnd
    · have hlt' : ebx.toNat < pageEnd.toNat := hlt
      rw [if_pos hlt]
      by_cases hword : readU32 map ebx.toNat = 0
      · -- An empty dword: the rest of the scan starts at `ebx + 4`.
        rw [if_neg (by simpa using hword)]
        have hadd : (ebx + 4).toNat = ebx.toNat + 4 := by
          rw [BitVec.toNat_add]
          exact mod_eq_of_lt (by simp; omega)
        have hrest := ih (ebx + 4) (by omega)
        have hstep : ∀ x, ebx.toNat ≤ x → x % 4 = ebx.toNat % 4 → readU32 map x ≠ 0 → (ebx + 4).toNat ≤ x := by
          intro x hlo hmod hne
          have : x ≠ ebx.toNat := fun h => hne (by rw [h]; exact hword)
          omega
        cases hloop : allocPageLoop map pageEnd fuel (ebx + 4) with
        | none =>
          rw [hloop] at hrest
          intro x hlo hhi hmod
          by_contra hne
          exact hne (hrest x (hstep x hlo hmod hne) hhi (by omega))
        | some found =>
          rw [hloop] at hrest
          obtain ⟨h1, h2, h3, h4, h5⟩ := hrest
          refine ⟨by omega, h2, by omega, h4, ?_⟩
          intro x hlo hhi hmod
          by_contra hne
          exact hne (h5 x (hstep x hlo hmod hne) hhi (by omega))
      · rw [if_pos (by simpa using hword)]
        exact ⟨le_refl _, hlt', rfl, hword, fun x hlo hhi => by omega⟩
    · have hge : pageEnd.toNat ≤ ebx.toNat := by simpa [BitVec.lt_def] using hlt
      rw [if_neg hlt]
      intro x hlo hhi
      omega

structure NoPage (b : PhysBitmap) (r : PhysBitmap × BitVec 32) : Prop where
  ret : r.2 = 0
  map : r.1.map = b.map
  pageStart : r.1.pageStart = b.pageStart
  pageEnd : r.1.pageEnd = b.pageEnd
  pagesFree : r.1.pagesFree = if b.pagesFree.toInt ≤ 1 then 1 else b.pagesFree
  reason : b.pagesFree.toInt ≤ 1 ∨ ∀ p ∈ b.freePages, p / 8 < b.pageStart.toNat

/-- Page `p` is handed out: the lowest free page that the cursor has not passed. -/
structure TookPage (b : PhysBitmap) (p : Nat) (r : PhysBitmap × BitVec 32) : Prop where
  mem : p ∈ b.freePages
  cursor : b.pageStart.toNat ≤ p / 8
  lowest : ∀ q ∈ b.freePages, b.pageStart.toNat ≤ q / 8 → p ≤ q
  ret : r.2.toNat = 4096 * p
  free : ∀ q, r.1.free q = (b.free q && decide (q ≠ p))
  pageStart : r.1.pageStart.toNat = p / 32 * 4
  pageEnd : r.1.pageEnd = b.pageEnd
  before : 1 < b.pagesFree.toInt
  pagesFree : r.1.pagesFree = b.pagesFree - 1

/-- The same for a map of any size. The address keeps its low 32 bits. -/
structure TookPageAt (b : PhysBitmap) (p : Nat) (r : PhysBitmap × BitVec 32) : Prop where
  mem : p ∈ b.freePages
  cursor : b.pageStart.toNat ≤ p / 8
  lowest : ∀ q ∈ b.freePages, b.pageStart.toNat ≤ q / 8 → p ≤ q
  ret : r.2 = BitVec.ofNat 32 p <<< 12
  free : ∀ q, r.1.free q = (b.free q && decide (q ≠ p))
  pageStart : r.1.pageStart.toNat = p / 32 * 4
  pageEnd : r.1.pageEnd = b.pageEnd
  before : 1 < b.pagesFree.toInt
  pagesFree : r.1.pagesFree = b.pagesFree - 1

theorem alloc_page_aligned : (allocPage b).2.toNat % 4096 = 0 := by
  have hshift : ∀ x : BitVec 32, (x <<< 12).toNat % 4096 = 0 := by
    intro x
    rw [BitVec.toNat_shiftLeft, shiftLeft_eq]
    omega
  unfold allocPage
  split_ifs
  · rfl
  split
  · rfl
  · simp only
    split_ifs
    · rfl
    · exact hshift _

theorem clear_bit_free (off : Nat) (bit : BitVec 32) (hbit : bit.toNat < 32) (q : Nat) :
    (writeU32 b.map off (readU32 b.map off &&& ~~~(1#32 <<< bit)) (q / 8)).getLsbD (q % 8) =
      (b.free q && decide (q ≠ 8 * off + bit.toNat)) := by
  rw [writeU32_bit]
  split_ifs with hq
  · obtain ⟨j, rfl⟩ : ∃ j, q = 8 * off + j := ⟨q - 8 * off, by omega⟩
    have hj : j < 32 := by omega
    rw [show 8 * off + j - 8 * off = j by omega, BitVec.getLsbD_and, readU32_bit _ _ _ hj,
      PhysBitmap.free, show (8 * off + j) / 8 = off + j / 8 by omega,
      show (8 * off + j) % 8 = j % 8 by omega]
    congr 1
    have hone : (1#32 <<< bit).getLsbD j = decide (j = bit.toNat) := by
      rw [BitVec.shiftLeft_eq', BitVec.getLsbD_shiftLeft]
      by_cases hjb : j = bit.toNat
      · simp [hjb, hbit]
      by_cases hlt : j < bit.toNat
      · simp [hlt, hjb]
      · have h1 : (1#32).getLsbD (j - bit.toNat) = false := by
          rw [BitVec.getLsbD_one]
          simp; omega
        simp [h1, hjb]
    rw [BitVec.getLsbD_not, hone]
    simp [hj]
  · have hne : q ≠ 8 * off + bit.toNat := by omega
    simp [PhysBitmap.free, hne]

theorem alloc_page_at_spec (hb : b.Bounded) : NoPage b (allocPage b) ∨ ∃ p, TookPageAt b p (allocPage b) := by
  obtain ⟨hstart, hend, hlt⟩ := hb
  unfold allocPage
  by_cases hfew : b.pagesFree.toInt ≤ 1
  · rw [if_pos hfew]
    exact .inl ⟨rfl, rfl, rfl, rfl, by simp [hfew], .inl hfew⟩
  rw [if_neg hfew]
  have hscan := alloc_page_loop_spec b.map b.pageEnd (by omega) b.pageEnd.toNat b.pageStart (by omega)
  -- A free page is a nonzero dword of the scan.
  have hdword : ∀ q ∈ b.freePages, b.pageStart.toNat ≤ q / 8 → ∀ x, x = q / 32 * 4 →
      b.pageStart.toNat ≤ x ∧ x < b.pageEnd.toNat ∧ readU32 b.map x ≠ 0 := by
    intro q hq hcur x hx
    rw [mem_freePages, PhysBitmap.pages] at hq
    refine ⟨by omega, by omega, fun hzero => ?_⟩
    have := (readU32_eq_zero_iff b x).mp hzero q (by omega) (by omega)
    simp [this] at hq
  cases hloop : allocPageLoop b.map b.pageEnd b.pageEnd.toNat b.pageStart with
  | none =>
    rw [hloop] at hscan
    refine .inl ⟨rfl, rfl, rfl, rfl, by simp [hfew], .inr fun q hq => ?_⟩
    by_contra hcur
    obtain ⟨h1, h2, h3⟩ := hdword q hq (by omega) _ rfl
    exact h3 (hscan _ h1 h2 (by omega))
  | some ebx =>
    rw [hloop] at hscan
    obtain ⟨hlo, hhi, hmod, hne, hbelow⟩ := hscan
    have hbit : (readU32 b.map ebx.toNat).ctz.toNat < 32 := by
      simpa [BitVec.lt_def] using BitVec.ctz_lt_iff_ne_zero.mpr hne
    have hset := BitVec.getLsbD_true_ctz_of_ne_zero hne
    rw [readU32_bit _ _ _ hbit] at hset
    have hpf : b.pagesFree - 1 ≠ 0 := by
      intro h
      have h1 : b.pagesFree = 1 := sub_eq_zero.mp h
      rw [h1] at hfew
      exact hfew (by decide)
    simp only [if_neg hpf]
    refine .inr ⟨8 * ebx.toNat + (readU32 b.map ebx.toNat).ctz.toNat, ?_⟩
    generalize hctz : (readU32 b.map ebx.toNat).ctz = bit at hbit hset
    constructor
    · rw [mem_freePages, PhysBitmap.pages, PhysBitmap.free,
        show (8 * ebx.toNat + bit.toNat) / 8 = ebx.toNat + bit.toNat / 8 by omega,
        show (8 * ebx.toNat + bit.toNat) % 8 = bit.toNat % 8 by omega]
      exact ⟨by omega, hset⟩
    · omega
    · intro q hq hcur
      obtain ⟨h1, h2, h3⟩ := hdword q hq hcur _ rfl
      -- `q` is not in an earlier dword, and not in an earlier bit of this one.
      have hge : ebx.toNat ≤ q / 32 * 4 := by
        by_contra hlt
        exact h3 (hbelow _ h1 (by omega) (by omega))
      by_contra hlt
      have hq' := ((mem_freePages b q).mp hq).2
      have hj := BitVec.getLsbD_false_of_lt_ctz (x := readU32 b.map ebx.toNat)
        (i := q - 8 * ebx.toNat) (by rw [hctz]; omega)
      rw [readU32_bit _ _ _ (by omega), show ebx.toNat + (q - 8 * ebx.toNat) / 8 = q / 8 by omega,
        show (q - 8 * ebx.toNat) % 8 = q % 8 by omega] at hj
      rw [PhysBitmap.free, hj] at hq'
      exact Bool.noConfusion hq'
    · show (bit + ebx * 8) <<< 12 = _
      congr 1
      apply BitVec.eq_of_toNat_eq
      rw [BitVec.toNat_ofNat]
      bv_omega
    · exact clear_bit_free b ebx.toNat bit hbit
    · show ebx.toNat = _
      omega
    · rfl
    · omega
    · rfl

theorem alloc_page_spec (hb : b.Valid) : NoPage b (allocPage b) ∨ ∃ p, TookPage b p (allocPage b) := by
  refine (alloc_page_at_spec b hb.bounded).imp_right fun ⟨p, h⟩ => ⟨p, ?_⟩
  have hp := ((mem_freePages b p).mp h.mem).1
  have hle := hb.end_le
  unfold PhysBitmap.pages at hp
  refine ⟨h.mem, h.cursor, h.lowest, ?_, h.free, h.pageStart, h.pageEnd, h.before, h.pagesFree⟩
  rw [h.ret, BitVec.toNat_shiftLeft, BitVec.toNat_ofNat, shiftLeft_eq]
  omega

/-! ## A run of whole bytes -/

structure RunAt (map : Nat → BitVec 8) (lo hi n off : Nat) : Prop where
  start : lo ≤ off
  inside : off + n ≤ hi
  full : ∀ x, off ≤ x → x < off + n → map x = 0xFF

structure FirstRun (map : Nat → BitVec 8) (lo hi n off : Nat) : Prop where
  run : RunAt map lo hi n off
  lowest : ∀ q, RunAt map lo hi n q → off ≤ q

section

variable {map : Nat → BitVec 8} {pageEnd : BitVec 32} {lo hi n off x : Nat}

theorem not_runAt (h : hi < lo + n) (off : Nat) : ¬ RunAt map lo hi n off := by
  rintro ⟨hstart, hinside, -⟩
  omega

theorem RunAt.behind (h : RunAt map lo hi n off) (hx : map x ≠ 0xFF) (hn : x < lo + n) : RunAt map (x + 1) hi n off := by
  refine ⟨?_, h.inside, h.full⟩
  by_contra hoff
  have := h.start
  exact hx (h.full x (by omega) (by omega))

theorem FirstRun.behind (h : FirstRun map (x + 1) hi n off) (hx : map x ≠ 0xFF) (hlo : lo ≤ x) (hn : x < lo + n) :
    FirstRun map lo hi n off := by
  have := h.run.start
  exact ⟨⟨by omega, h.run.inside, h.run.full⟩, fun q hq => h.lowest q (hq.behind hx hn)⟩

theorem alloc_pages_run_spec {fuel : Nat} {cur edx : BitVec 32} (hedx : edx ≠ 0)
    (hfuel : pageEnd.toNat < cur.toNat + fuel) :
    match allocPagesRun map pageEnd fuel cur edx with
    | .outOfMap => pageEnd.toNat < cur.toNat + edx.toNat
    | .mismatch next => cur.toNat < next.toNat ∧ next.toNat ≤ cur.toNat + edx.toNat ∧ map (next.toNat - 1) ≠ 0xFF
    | .found => cur.toNat + edx.toNat ≤ pageEnd.toNat ∧
        ∀ x, cur.toNat ≤ x → x < cur.toNat + edx.toNat → map x = 0xFF := by
  induction fuel generalizing cur edx with
  | zero =>
    show pageEnd.toNat < cur.toNat + edx.toNat
    omega
  | succ fuel ih =>
    have hpos : edx.toNat ≠ 0 := fun h => hedx (BitVec.eq_of_toNat_eq h)
    unfold allocPagesRun
    by_cases hout : cur ≥ pageEnd
    · rw [if_pos hout]
      have hge : pageEnd.toNat ≤ cur.toNat := hout
      omega
    have hlt : cur.toNat < pageEnd.toNat := by simpa [BitVec.le_def] using hout
    have hadd : (cur + 1).toNat = cur.toNat + 1 := by bv_omega
    have hsub : (edx - 1).toNat = edx.toNat - 1 := by bv_omega
    rw [if_neg hout]
    by_cases hbyte : map cur.toNat = 0xFF
    · rw [if_neg (not_not.mpr hbyte)]
      by_cases hone : edx - 1 = 0
      · rw [if_pos hone]
        have h1 : edx.toNat = 1 := by bv_omega
        refine ⟨by omega, fun x hlo hhi => ?_⟩
        rw [show x = cur.toNat by omega]
        exact hbyte
      rw [if_neg hone]
      have hrest := @ih (cur + 1) (edx - 1) hone (by omega)
      cases hrun : allocPagesRun map pageEnd fuel (cur + 1) (edx - 1) with
      | outOfMap =>
        rw [hrun] at hrest
        simp only at hrest ⊢
        omega
      | mismatch next =>
        rw [hrun] at hrest
        exact ⟨by omega, by omega, hrest.2.2⟩
      | found =>
        rw [hrun] at hrest
        obtain ⟨h1, h2⟩ := hrest
        refine ⟨by omega, fun x hlo hhi => ?_⟩
        by_cases hx : x = cur.toNat
        · rw [hx]
          exact hbyte
        · exact h2 x (by omega) (by omega)
    · rw [if_pos hbyte]
      refine ⟨by omega, by omega, ?_⟩
      rwa [hadd, Nat.add_sub_cancel]

theorem alloc_pages_find_spec {need : BitVec 32} (hneed : need ≠ 0) {fuel : Nat} {ecx : BitVec 32}
    (hfuel : pageEnd.toNat < ecx.toNat + fuel) :
    match allocPagesFind map pageEnd need fuel ecx with
    | none => ∀ off, ¬ RunAt map ecx.toNat pageEnd.toNat need.toNat off
    | some edi => FirstRun map ecx.toNat pageEnd.toNat need.toNat edi.toNat := by
  have hpos : need.toNat ≠ 0 := fun h => hneed (BitVec.eq_of_toNat_eq h)
  induction fuel generalizing ecx with
  | zero => exact not_runAt (by omega)
  | succ fuel ih =>
    unfold allocPagesFind
    by_cases hlt : ecx < pageEnd
    · have hrun := @alloc_pages_run_spec map pageEnd (pageEnd.toNat + 1) ecx need hneed (by omega)
      rw [if_pos hlt]
      cases hres : allocPagesRun map pageEnd (pageEnd.toNat + 1) ecx need with
      | outOfMap =>
        rw [hres] at hrun
        exact not_runAt hrun
      | mismatch next =>
        rw [hres] at hrun
        obtain ⟨hnext, hle, hbyte⟩ := hrun
        have hrest := @ih next (by omega)
        rw [show next.toNat = next.toNat - 1 + 1 by omega] at hrest
        dsimp only
        cases hfind : allocPagesFind map pageEnd need fuel next with
        | none =>
          rw [hfind] at hrest
          exact fun off hat => hrest off (hat.behind hbyte (by omega))
        | some edi =>
          rw [hfind] at hrest
          exact hrest.behind hbyte (by omega) (by omega)
      | found =>
        rw [hres] at hrun
        exact ⟨⟨le_rfl, hrun.1, hrun.2⟩, fun q hat => hat.start⟩
    · rw [if_neg hlt]
      have hge : pageEnd.toNat ≤ ecx.toNat := by simpa [BitVec.lt_def] using hlt
      exact not_runAt (by omega)

end

structure TookRun (b : PhysBitmap) (off n : Nat) (r : PhysBitmap × BitVec 32) : Prop where
  pos : 0 < n
  cursor : b.pageStart.toNat ≤ off
  inside : off + n ≤ b.pageEnd.toNat
  mem : ∀ p, 8 * off ≤ p → p < 8 * (off + n) → p ∈ b.freePages
  ret : r.2.toNat = 4096 * (8 * off)
  free : ∀ q, r.1.free q = (b.free q && decide (¬ (8 * off ≤ q ∧ q < 8 * (off + n))))
  pageStart : r.1.pageStart = b.pageStart
  pageEnd : r.1.pageEnd = b.pageEnd
  before : 8 * n + 9 ≤ b.pagesFree.toNat
  pagesFree : r.1.pagesFree.toNat + 8 * n = b.pagesFree.toNat

theorem need_le_avail (pagesFree count : BitVec 32) (hpos : ¬ (pagesFree - 9).toInt < 0)
    (havail : ¬ ((count + 7) >>> 3).toInt > ((pagesFree - 9) >>> 3).toInt)
    (hneed : (count + 7) >>> 3 ≠ 0) :
    ((count + 7) >>> 3).toNat = (count.toNat + 7) / 8 ∧ 8 * ((count.toNat + 7) / 8) + 9 ≤ pagesFree.toNat := by
  have h9 : (pagesFree - 9).toNat = (2 ^ 32 - 9 + pagesFree.toNat) % 2 ^ 32 := by
    rw [BitVec.toNat_sub]; rfl
  have h7 : (count + 7).toNat = (count.toNat + 7) % 2 ^ 32 := by rw [BitVec.toNat_add]; rfl
  have hn : ((count + 7) >>> 3).toNat = (count + 7).toNat / 8 := by
    rw [BitVec.toNat_ushiftRight, shiftRight_eq_div_pow]
  have ha : ((pagesFree - 9) >>> 3).toNat = (pagesFree - 9).toNat / 8 := by
    rw [BitVec.toNat_ushiftRight, shiftRight_eq_div_pow]
  have hne : ((count + 7) >>> 3).toNat ≠ 0 := fun h => hneed (BitVec.eq_of_toNat_eq (by simpa using h))
  rw [BitVec.toInt_eq_toNat_cond] at hpos
  rw [BitVec.toInt_eq_toNat_cond, BitVec.toInt_eq_toNat_cond, hn, ha] at havail
  split_ifs at hpos havail <;> omega

theorem charge_eq {count : BitVec 32} (hneed : ((count + 7) >>> 3).toNat = (count.toNat + 7) / 8) :
    (count + 7) >>> 3 <<< 3 = BitVec.ofNat 32 (8 * ((count.toNat + 7) / 8)) := by
  apply BitVec.eq_of_toNat_eq
  rw [BitVec.toNat_shiftLeft, shiftLeft_eq, hneed, BitVec.toNat_ofNat, mul_comm]

theorem alloc_pages_of_passed {b : PhysBitmap} {count : BitVec 32} (hfew : ¬ (b.pagesFree - 9).toInt < 0)
    (hbig : ¬ ((count + 7) >>> 3).toInt > ((b.pagesFree - 9) >>> 3).toInt) (hzero : (count + 7) >>> 3 ≠ 0) :
    ((∀ off, ¬ RunAt b.map b.pageStart.toNat b.pageEnd.toNat ((count.toNat + 7) / 8) off) ∧
      allocPages b count = (b, 0)) ∨
    ∃ off, FirstRun b.map b.pageStart.toNat b.pageEnd.toNat ((count.toNat + 7) / 8) off ∧
      allocPages b count = ({ b with
        map := clearBytes b.map off ((count.toNat + 7) / 8)
        pagesFree := b.pagesFree - BitVec.ofNat 32 (8 * ((count.toNat + 7) / 8)) }, BitVec.ofNat 32 off <<< 15) := by
  have hneed := (need_le_avail b.pagesFree count hfew hbig hzero).1
  have hspec := @alloc_pages_find_spec b.map b.pageEnd _ hzero (b.pageEnd.toNat + 1) b.pageStart (by omega)
  rw [hneed] at hspec
  unfold allocPages
  simp only
  rw [if_neg hfew, if_neg hbig, if_neg hzero]
  cases hfind : allocPagesFind b.map b.pageEnd ((count + 7) >>> 3) (b.pageEnd.toNat + 1) b.pageStart with
  | none =>
    rw [hfind] at hspec
    exact .inl ⟨hspec, rfl⟩
  | some edi =>
    rw [hfind] at hspec
    have hedi : BitVec.ofNat 32 edi.toNat = edi := by simp
    refine .inr ⟨edi.toNat, hspec, ?_⟩
    rw [charge_eq hneed, hneed, hedi]

theorem alloc_pages_of_not_passed {b : PhysBitmap} {count : BitVec 32}
    (h : ¬ (¬ (b.pagesFree - 9).toInt < 0 ∧ ¬ ((count + 7) >>> 3).toInt > ((b.pagesFree - 9) >>> 3).toInt ∧
      (count + 7) >>> 3 ≠ 0)) : allocPages b count = (b, 0) := by
  unfold allocPages
  simp only
  split_ifs with hfew hbig hzero
  · rfl
  · rfl
  · rfl
  · exact absurd ⟨hfew, hbig, hzero⟩ h

theorem alloc_pages_cases (count : BitVec 32) :
    allocPages b count = (b, 0) ∨ ∃ off, RunAt b.map b.pageStart.toNat b.pageEnd.toNat ((count.toNat + 7) / 8) off ∧
        0 < (count.toNat + 7) / 8 ∧ 8 * ((count.toNat + 7) / 8) + 9 ≤ b.pagesFree.toNat ∧
        allocPages b count = ({ b with
          map := clearBytes b.map off ((count.toNat + 7) / 8)
          pagesFree := b.pagesFree - BitVec.ofNat 32 (8 * ((count.toNat + 7) / 8)) }, BitVec.ofNat 32 off <<< 15) := by
  by_cases hpassed : ¬ (b.pagesFree - 9).toInt < 0 ∧ ¬ ((count + 7) >>> 3).toInt > ((b.pagesFree - 9) >>> 3).toInt ∧
      (count + 7) >>> 3 ≠ 0
  · obtain ⟨hfew, hbig, hzero⟩ := hpassed
    obtain ⟨hneed, hbefore⟩ := need_le_avail b.pagesFree count hfew hbig hzero
    have hn0 : ((count + 7) >>> 3).toNat ≠ 0 := fun h => hzero (BitVec.eq_of_toNat_eq h)
    rcases alloc_pages_of_passed hfew hbig hzero with ⟨-, hno⟩ | ⟨off, hfirst, htook⟩
    · exact .inl hno
    · exact .inr ⟨off, hfirst.run, by omega, hbefore, htook⟩
  · exact .inl (alloc_pages_of_not_passed hpassed)

theorem RunAt.mem_freePages {b : PhysBitmap} {lo n off p : Nat} (h : RunAt b.map lo b.pageEnd.toNat n off)
    (hlo : 8 * off ≤ p) (hhi : p < 8 * (off + n)) : p ∈ b.freePages := by
  have := h.inside
  rw [Bitmap.mem_freePages, PhysBitmap.pages]
  exact ⟨by omega, free_of_byte b p (h.full _ (by omega) (by omega))⟩

theorem toNat_sub_charge {pagesFree : BitVec 32} {n : Nat} (h : n ≤ pagesFree.toNat) :
    (pagesFree - BitVec.ofNat 32 n).toNat + n = pagesFree.toNat := by
  rw [BitVec.toNat_sub, BitVec.toNat_ofNat]
  omega

theorem alloc_pages_spec (hb : b.Valid) (count : BitVec 32) :
    allocPages b count = (b, 0) ∨ ∃ off, TookRun b off ((count.toNat + 7) / 8) (allocPages b count) := by
  refine (alloc_pages_cases b count).imp_right fun ⟨off, hrun, hpos, hbefore, htook⟩ => ⟨off, ?_⟩
  have hle := hb.end_le
  have hinside := hrun.inside
  rw [htook]
  refine ⟨hpos, hrun.start, hinside, fun p hlo hhi => hrun.mem_freePages hlo hhi, ?_, fun q => ?_, rfl, rfl, hbefore,
    toNat_sub_charge (by omega)⟩
  · rw [BitVec.toNat_shiftLeft, BitVec.toNat_ofNat, shiftLeft_eq]
    omega
  · exact clearBytes_bit ..

/-- **First fit is complete**: the run handed out is the lowest one. Its address is 0 at a multiple of 4 GiB. -/
theorem alloc_pages_first_fit (b : PhysBitmap) (count : BitVec 32) (hneed : 0 < (count.toNat + 7) / 8)
    (hfree : 9 ≤ b.pagesFree.toInt) (hfits : ((count.toNat + 7) / 8 : Nat) ≤ (b.pagesFree.toInt - 9) / 8) :
    ((∀ off, ¬ RunAt b.map b.pageStart.toNat b.pageEnd.toNat ((count.toNat + 7) / 8) off) ∧
      allocPages b count = (b, 0)) ∨
    ∃ off, FirstRun b.map b.pageStart.toNat b.pageEnd.toNat ((count.toNat + 7) / 8) off ∧
      allocPages b count = ({ b with
        map := clearBytes b.map off ((count.toNat + 7) / 8)
        pagesFree := b.pagesFree - BitVec.ofNat 32 (8 * ((count.toNat + 7) / 8)) }, BitVec.ofNat 32 off <<< 15) ∧
      8 * ((count.toNat + 7) / 8) ≤ b.pagesFree.toNat ∧
      ((allocPages b count).2 = 0 ↔ off % 2 ^ 17 = 0) := by
  have hint := BitVec.toInt_eq_toNat_cond b.pagesFree
  have hnine : (b.pagesFree - 9).toNat = b.pagesFree.toNat - 9 := by split_ifs at hint <;> bv_omega
  have hneedBytes : ((count + 7) >>> 3).toNat = (count.toNat + 7) / 8 := by
    have hseven : (count + 7).toNat = count.toNat + 7 := by split_ifs at hint <;> bv_omega
    rw [BitVec.toNat_ushiftRight, shiftRight_eq_div_pow, hseven]
  have havail : ((b.pagesFree - 9) >>> 3).toNat = (b.pagesFree.toNat - 9) / 8 := by
    rw [BitVec.toNat_ushiftRight, shiftRight_eq_div_pow, hnine]
  have hzero : (count + 7) >>> 3 ≠ 0 := fun h => by
    rw [h] at hneedBytes
    exact hneed.ne hneedBytes
  have hpassed := @alloc_pages_of_passed b count
    (by rw [BitVec.toInt_eq_toNat_cond, hnine]; split_ifs at hint ⊢ <;> omega)
    (by
      rw [BitVec.toInt_eq_toNat_cond, BitVec.toInt_eq_toNat_cond, hneedBytes, havail]
      split_ifs at hint ⊢ <;> omega) hzero
  refine hpassed.imp_right fun ⟨off, hfirst, heq⟩ => ⟨off, hfirst, heq, by split_ifs at hint <;> omega, ?_⟩
  have hz : (0 : BitVec 32).toNat = 0 := rfl
  rw [heq, ← BitVec.toNat_inj, BitVec.toNat_shiftLeft, BitVec.toNat_ofNat, shiftLeft_eq, hz]
  omega

def fullMap (pageStart : BitVec 32) : PhysBitmap := ⟨fun _ => 0xFF, pageStart, 8, 64⟩

theorem alloc_pages_first_fit_four :
    9 ≤ (fullMap 4).pagesFree.toInt ∧ ∃ off, FirstRun (fullMap 4).map 4 8 1 off ∧
      (allocPages (fullMap 4) 8).2 = BitVec.ofNat 32 off <<< 15 := by
  rcases alloc_pages_first_fit (fullMap 4) 8 (by decide) (by decide) (by decide) with ⟨hnone, -⟩ | ⟨off, hrun, heq, -⟩
  · exact absurd ⟨le_rfl, by decide, fun _ _ _ => rfl⟩ (hnone 4)
  · exact ⟨by decide, off, hrun, congrArg Prod.snd heq⟩

/-- With the cursor at the start of the map, the run at address 0 is handed out as 0. -/
theorem alloc_pages_run_at_zero :
    ¬ ∀ (b : PhysBitmap) (count : BitVec 32), 0 < (count.toNat + 7) / 8 → 9 ≤ b.pagesFree.toInt →
      ((count.toNat + 7) / 8 : Nat) ≤ (b.pagesFree.toInt - 9) / 8 →
      ((allocPages b count).2 = 0 ↔
        ∀ off, ¬ RunAt b.map b.pageStart.toNat b.pageEnd.toNat ((count.toNat + 7) / 8) off) := by
  intro h
  have hnone := (h (fullMap 0) 8 (by decide) (by decide) (by decide)).mp (by decide)
  exact hnone 0 ⟨le_rfl, by decide, fun _ _ _ => rfl⟩

/-! ## What the callers need -/

theorem alloc_page_took (hb : b.Valid) :
    (allocPage b).1.Valid ∧ (∀ q, (allocPage b).1.free q = true → b.free q = true) ∧
      ((allocPage b).2 ≠ 0 → ∃ f, (allocPage b).2.toNat = 4096 * f ∧ f < 2 ^ 20 ∧ b.free f = true ∧
        (allocPage b).1.free f = false) := by
  rcases alloc_page_spec b hb with hno | ⟨f, htook⟩
  · refine ⟨hb.of_end hno.pageEnd (by rw [hno.pageStart]; exact hb.start_aligned), fun q hq => ?_,
      fun hne => absurd hno.ret hne⟩
    unfold PhysBitmap.free at hq ⊢
    rwa [hno.map] at hq
  have hmem := (mem_freePages b f).mp htook.mem
  have hle := hb.end_le
  unfold PhysBitmap.pages at hmem
  refine ⟨hb.of_end htook.pageEnd (by rw [htook.pageStart]; omega), fun q hq => ?_,
    fun _ => ⟨f, htook.ret, by omega, hmem.2, by simp [htook.free]⟩⟩
  rw [htook.free, Bool.and_eq_true] at hq
  exact hq.1

theorem alloc_pages_took (hb : b.Valid) (count : BitVec 32) :
    (allocPages b count).1.Valid ∧ (∀ q, (allocPages b count).1.free q = true → b.free q = true) ∧
      ((allocPages b count).2 ≠ 0 → ∃ f, (allocPages b count).2.toNat = 4096 * f ∧
        f + count.toNat ≤ 2 ^ 20 ∧ ∀ q, f ≤ q → q < f + count.toNat → b.free q = true ∧
          (allocPages b count).1.free q = false) := by
  rcases alloc_pages_spec b hb count with hno | ⟨off, htook⟩
  · rw [hno]
    exact ⟨hb, fun _ hq => hq, fun hne => absurd rfl hne⟩
  have hle := hb.end_le
  have hinside := htook.inside
  refine ⟨hb.of_end htook.pageEnd (by rw [htook.pageStart]; exact hb.start_aligned), fun q hq => ?_,
    fun _ => ⟨8 * off, htook.ret, by omega, fun q hlo hhi => ⟨?_, ?_⟩⟩⟩
  · rw [htook.free, Bool.and_eq_true] at hq
    exact hq.1
  · exact ((mem_freePages b q).mp (htook.mem q hlo (by omega))).2
  · rw [htook.free, decide_eq_false (by omega), Bool.and_false]

end Kolibri.Bitmap
