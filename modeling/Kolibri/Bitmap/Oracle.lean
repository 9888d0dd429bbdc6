import Kolibri.Bitmap.Runs

/-! # The set-based model of the page bitmap (`pg_bitmap_oracle.rs`) -/

namespace Kolibri.Bitmap

open Run BitVec

/-- Page `p` is bit `p % 64` of word `p / 64`. -/
structure IndependentBitmap where
  words : Nat → BitVec 64
  pagesFree : BitVec 32
  cursorPageBase : BitVec 32
  totalPages : BitVec 32

namespace IndependentBitmap

variable (o : IndependentBitmap) (page : BitVec 32)

def isFree : Bool :=
  if page ≥ o.totalPages then false
  else decide ((o.words (page / 64).toNat >>> (page % 64).toNat) &&& 1 = 1)

def setFree (free : Bool) : IndependentBitmap :=
  if page ≥ o.totalPages then o
  else
    let w := (page / 64).toNat
    let b := (page % 64).toNat
    { o with words := fun i =>
        if i = w then (if free then o.words w ||| 1#64 <<< b else o.words w &&& ~~~(1#64 <<< b)) else o.words i }

/-- The `while page < total_pages` loop: the first free page. -/
def allocPageScan (o : IndependentBitmap) : Nat → BitVec 32 → Option (BitVec 32)
  | 0, _ => none
  | fuel + 1, page =>
    if page < o.totalPages then if o.isFree page then some page else o.allocPageScan fuel (page + 1) else none

def allocPage : IndependentBitmap × Option (BitVec 32) :=
  if o.pagesFree ≤ 1 then ({ o with pagesFree := 1 }, none)
  else
    match o.allocPageScan o.totalPages.toNat o.cursorPageBase with
    | none => (o, none)
    | some page =>
      let pagesFree := o.pagesFree - 1
      if pagesFree = 0 then ({ o with pagesFree := 1 }, none)
      else ({ o.setFree page false with pagesFree, cursorPageBase := page / 32 * 32 }, some (page <<< 12))

def freePage (phys : BitVec 32) : IndependentBitmap :=
  let page := phys >>> 12
  if page ≥ o.totalPages then o
  else
    let wasFree := o.isFree page
    let dwordBase := page / 32 * 32
    { o.setFree page true with
      pagesFree := if wasFree then o.pagesFree else o.pagesFree + 1
      cursorPageBase := if dwordBase < o.cursorPageBase then dwordBase else o.cursorPageBase }

def byteFree (byte : Nat) : Bool :=
  (List.range 8).all fun j => o.isFree (BitVec.ofNat 32 (byte * 8) + BitVec.ofNat 32 j)

/-- The `while byte < end_byte` loop: the first byte of a run. -/
def allocPagesScan (o : IndependentBitmap) (endByte need : Nat) : Nat → Nat → Option Nat
  | 0, _ => none
  | fuel + 1, byte =>
    if byte < endByte then
      if byte + need > endByte then none
      else
        match (List.range need).find? fun k => !o.byteFree (byte + k) with
        | some k => o.allocPagesScan endByte need fuel (byte + k + 1)
        | none => some byte
    else none

def clearByte (byte : Nat) : IndependentBitmap :=
  (List.range 8).foldl (fun o j => o.setFree (BitVec.ofNat 32 (byte * 8) + BitVec.ofNat 32 j) false) o

def allocPages (count : BitVec 32) : IndependentBitmap × Option (BitVec 32) :=
  let needBytes := (count + 7) >>> 3
  if o.pagesFree < 9 then (o, none)
  else if needBytes > (o.pagesFree - 9) >>> 3 then (o, none)
  else if needBytes = 0 then (o, none)
  else
    let endByte := (o.totalPages / 8).toNat
    match o.allocPagesScan endByte needBytes.toNat (endByte + 1) (o.cursorPageBase / 8).toNat with
    | none => (o, none)
    | some byte =>
      ({ (List.range needBytes.toNat).foldl (fun o k => o.clearByte (byte + k)) o with
        pagesFree := o.pagesFree - needBytes <<< 3 }, some (BitVec.ofNat 32 byte <<< 15))

/-- The release without a cursor update. The caller adds the delta to `pages_free`. -/
def releaseBitmapPage (pageIndex : BitVec 32) : IndependentBitmap × BitVec 32 :=
  if pageIndex ≥ o.totalPages then (o, 0)
  else (o.setFree pageIndex true, if o.isFree pageIndex then 0 else 1)

/-- One call, with `None` as the address 0. -/
def step : Op → IndependentBitmap × BitVec 32
  | .allocPage => (o.allocPage.1, o.allocPage.2.getD 0)
  | .allocPages count => ((o.allocPages count).1, (o.allocPages count).2.getD 0)
  | .freePage phys => (o.freePage phys, 0)
  | .releaseBitmapPageModeB pageIndex =>
    let (o', delta) := o.releaseBitmapPage pageIndex
    ({ o' with pagesFree := o.pagesFree + delta }, delta)

open Nat List

/-! ## Single pages -/

theorem isFree_eq :
    o.isFree page = (decide (page < o.totalPages) && (o.words (page.toNat / 64)).getLsbD (page.toNat % 64)) := by
  have hbit : ∀ x : BitVec 64, decide (x &&& 1 = 1) = x.getLsbD 0 := by
    intro x
    rw [show x &&& 1 = x &&& 1#64 from rfl, and_one_eq_setWidth_ofBool_getLsbD]
    cases x.getLsbD 0 <;> rfl
  unfold isFree
  rw [hbit, getLsbD_ushiftRight, toNat_udiv, toNat_umod, add_zero]
  by_cases h : page < o.totalPages
  · rw [if_neg (by simpa using h), decide_eq_true h, Bool.true_and]
    rfl
  · rw [if_pos (by simpa using h), decide_eq_false h, Bool.false_and]

theorem isFree_setFree {o : IndependentBitmap} {page : BitVec 32} (h : page < o.totalPages) (v : Bool)
    (q : BitVec 32) : (o.setFree page v).isFree q = if q = page then v else o.isFree q := by
  have hset : o.setFree page v = { o with words := fun i => if i = page.toNat / 64 then (if v then
      o.words (page.toNat / 64) ||| 1#64 <<< (page.toNat % 64) else
      o.words (page.toNat / 64) &&& ~~~(1#64 <<< (page.toNat % 64))) else o.words i } := by
    unfold setFree
    rw [if_neg (by simpa using h), toNat_udiv, toNat_umod]
    rfl
  have hq : q = page ↔ q.toNat / 64 = page.toNat / 64 ∧ q.toNat % 64 = page.toNat % 64 := by
    rw [← toNat_inj]
    omega
  have hmod : q.toNat % 64 < 64 := mod_lt _ (by decide)
  rw [hset, isFree_eq, isFree_eq]
  by_cases hw : q.toNat / 64 = page.toNat / 64
  · simp only [hq, hw, if_true, true_and]
    by_cases hb : q.toNat % 64 = page.toNat % 64
    · have heq := hq.mpr ⟨hw, hb⟩
      subst heq
      cases v <;> simp [← twoPow_eq, hmod, h]
    · cases v <;> simp [← twoPow_eq, hmod, hb]
  · simp [hq, hw]

@[simp] theorem setFree_cursorPageBase (v : Bool) : (o.setFree page v).cursorPageBase = o.cursorPageBase := by
  unfold setFree
  split_ifs <;> rfl

@[simp] theorem setFree_totalPages (v : Bool) : (o.setFree page v).totalPages = o.totalPages := by
  unfold setFree
  split_ifs <;> rfl

theorem isFree_congr {o o' : IndependentBitmap} (hwords : o'.words = o.words) (htotal : o'.totalPages = o.totalPages)
    (page : BitVec 32) : o'.isFree page = o.isFree page := by
  rw [isFree_eq, isFree_eq, hwords, htotal]

theorem foldl_clear (pages : List (BitVec 32)) :
    (pages.foldl (fun o p => o.setFree p false) o).totalPages = o.totalPages ∧
      (pages.foldl (fun o p => o.setFree p false) o).cursorPageBase = o.cursorPageBase ∧
      ∀ q, (pages.foldl (fun o p => o.setFree p false) o).isFree q = (o.isFree q && decide (q ∉ pages)) := by
  induction pages generalizing o with
  | nil => simp
  | cons p pages ih =>
    obtain ⟨htotal, hcursor, hfree⟩ := ih (o.setFree p false)
    rw [foldl_cons]
    refine ⟨by rw [htotal, setFree_totalPages], by rw [hcursor, setFree_cursorPageBase], fun q => ?_⟩
    rw [hfree]
    by_cases hp : p < o.totalPages
    · rw [isFree_setFree hp]
      by_cases hq : q = p <;> simp [hq]
    · have hsame : o.setFree p false = o := if_pos (by simpa using hp)
      have hout : o.isFree p = false := by rw [isFree_eq, decide_eq_false hp, Bool.false_and]
      rw [hsame]
      by_cases hq : q = p <;> simp [hq, hout]

theorem foldl_clearByte (byte n : Nat) :
    (List.range n).foldl (fun o k => o.clearByte (byte + k)) o =
      ((List.range n).flatMap fun k => (List.range 8).map fun j =>
        BitVec.ofNat 32 ((byte + k) * 8) + BitVec.ofNat 32 j).foldl (fun o p => o.setFree p false) o := by
  rw [foldl_flatMap]
  simp only [foldl_map]
  rfl

theorem allocPageScan_spec {fuel : Nat} {page : BitVec 32}
    (hfuel : o.totalPages.toNat ≤ page.toNat + fuel) :
    match o.allocPageScan fuel page with
    | none => ∀ q, page.toNat ≤ q.toNat → o.isFree q = false
    | some p => page.toNat ≤ p.toNat ∧ o.isFree p = true ∧
        ∀ q, page.toNat ≤ q.toNat → o.isFree q = true → p.toNat ≤ q.toNat := by
  have hout : ∀ q, o.totalPages.toNat ≤ q.toNat → o.isFree q = false := by
    intro q hq
    rw [isFree_eq, decide_eq_false (by simpa [lt_def] using hq), Bool.false_and]
  induction fuel generalizing page with
  | zero => exact fun q hq => hout q (by omega)
  | succ fuel ih =>
    unfold allocPageScan
    by_cases hlt : page < o.totalPages
    · rw [if_pos hlt]
      cases hfree : o.isFree page with
      | true => exact ⟨le_rfl, hfree, fun q hq _ => hq⟩
      | false =>
        have hsucc : (page + 1).toNat = page.toNat + 1 := by bv_omega
        have hrest := @ih (page + 1) (by omega)
        have hnext : ∀ q, page.toNat ≤ q.toNat → o.isFree q = true → (page + 1).toNat ≤ q.toNat := by
          intro q hq hqfree
          have hne : q.toNat ≠ page.toNat := fun h => by
            rw [eq_of_toNat_eq h, hfree] at hqfree
            cases hqfree
          omega
        rw [if_neg (by simp)]
        cases hscan : o.allocPageScan fuel (page + 1) with
        | none =>
          rw [hscan] at hrest
          exact fun q hq => Bool.eq_false_iff.mpr fun hqfree =>
            Bool.eq_false_iff.mp (hrest q (hnext q hq hqfree)) hqfree
        | some p =>
          rw [hscan] at hrest
          exact ⟨by omega, hrest.2.1, fun q hq hqfree => hrest.2.2 q (hnext q hq hqfree) hqfree⟩
    · rw [if_neg hlt]
      have hge : o.totalPages.toNat ≤ page.toNat := by simpa [lt_def] using hlt
      exact fun q hq => hout q (by omega)

theorem allocPageScan_eq_some {fuel : Nat} {page p : BitVec 32} (hfuel : o.totalPages.toNat ≤ page.toNat + fuel)
    (hp : page.toNat ≤ p.toNat) (hfree : o.isFree p = true)
    (hlowest : ∀ q, page.toNat ≤ q.toNat → o.isFree q = true → p.toNat ≤ q.toNat) :
    o.allocPageScan fuel page = some p := by
  have hscan := o.allocPageScan_spec hfuel
  cases hs : o.allocPageScan fuel page with
  | none =>
    rw [hs] at hscan
    exact absurd hfree (by rw [hscan p hp]; simp)
  | some q =>
    rw [hs] at hscan
    obtain ⟨hq, hqfree, hqlowest⟩ := hscan
    rw [eq_of_toNat_eq (le_antisymm (hqlowest p hp hfree) (hlowest q hq hqfree))]

end IndependentBitmap

open Nat List

/-! ## The same state -/

structure Corresponds (b : PhysBitmap) (o : IndependentBitmap) : Prop where
  free : ∀ p : BitVec 32, p.toNat < b.pages → o.isFree p = b.free p.toNat
  cursor : o.cursorPageBase.toNat = 8 * b.pageStart.toNat
  pagesFree : o.pagesFree = b.pagesFree
  total : o.totalPages.toNat = b.pages

namespace Corresponds

variable {b : PhysBitmap} {o : IndependentBitmap}

theorem isFree_iff (h : Corresponds b o) (p : BitVec 32) : o.isFree p = true ↔ p.toNat ∈ b.freePages := by
  rw [mem_freePages]
  constructor
  · intro hp
    have hlt : p.toNat < b.pages := by
      rw [o.isFree_eq, Bool.and_eq_true, decide_eq_true_eq] at hp
      rw [← h.total]
      exact hp.1
    exact ⟨hlt, (h.free p hlt).symm.trans hp⟩
  · exact fun hp => (h.free p hp.1).trans hp.2

theorem lt_total (h : Corresponds b o) {p : BitVec 32} : p < o.totalPages ↔ p.toNat < b.pages := by
  rw [lt_def, h.total]

theorem toNat_ofNat (h : Corresponds b o) {p : Nat} (hp : p < b.pages) : (BitVec.ofNat 32 p).toNat = p := by
  have := o.totalPages.isLt
  rw [h.total] at this
  rw [BitVec.toNat_ofNat]
  omega

theorem setFree {b' : PhysBitmap} {page cursor : BitVec 32} (h : Corresponds b o) (hpage : page.toNat < b.pages)
    (v : Bool) (hfree : ∀ q, b'.free q = if q = page.toNat then v else b.free q) (hend : b'.pageEnd = b.pageEnd)
    (hcursor : cursor.toNat = 8 * b'.pageStart.toNat) :
    Corresponds b' { o.setFree page v with pagesFree := b'.pagesFree, cursorPageBase := cursor } := by
  have hpages : b'.pages = b.pages := by rw [PhysBitmap.pages, hend, PhysBitmap.pages]
  refine ⟨fun p hp => ?_, hcursor, rfl, ?_⟩
  · rw [hpages] at hp
    refine (@IndependentBitmap.isFree_congr (o.setFree page v) _ rfl rfl p).trans ?_
    rw [hfree, ← h.free p hp, IndependentBitmap.isFree_setFree (h.lt_total.mpr hpage)]
    simp only [toNat_inj]
  · rw [hpages, ← h.total]
    exact congrArg _ (o.setFree_totalPages page v)

theorem toNat_dwordBase (page : BitVec 32) : (page / 32 * 32).toNat = page.toNat / 32 * 32 := by
  have h32 : (32 : BitVec 32).toNat = 32 := rfl
  rw [toNat_mul, toNat_udiv, h32]
  omega

theorem recount {b' : PhysBitmap} (h : Corresponds b o) (hmap : b'.map = b.map) (hstart : b'.pageStart = b.pageStart)
    (hend : b'.pageEnd = b.pageEnd) : Corresponds b' { o with pagesFree := b'.pagesFree } := by
  have hpages : b'.pages = b.pages := by rw [PhysBitmap.pages, hend, PhysBitmap.pages]
  refine ⟨fun q hq => ?_, ?_, rfl, ?_⟩
  · rw [PhysBitmap.free, hmap]
    exact (IndependentBitmap.isFree_congr rfl rfl q).trans (h.free q (hpages ▸ hq))
  · rw [hstart]
    exact h.cursor
  · rw [hpages]
    exact h.total

theorem alloc_page (hb : b.Bounded) (h : Corresponds b o) (hsmall : b.pagesFree.toNat < 2 ^ 31) :
    Corresponds (allocPage b).1 o.allocPage.1 ∧ (allocPage b).2 = o.allocPage.2.getD 0 := by
  have hint := toInt_of_small hsmall
  have hfew : o.pagesFree ≤ 1 ↔ b.pagesFree.toInt ≤ 1 := by
    rw [h.pagesFree, le_def, hint, show (1 : BitVec 32).toNat = 1 from rfl]
    omega
  have hscan := @o.allocPageScan_spec o.totalPages.toNat o.cursorPageBase (by omega)
  unfold IndependentBitmap.allocPage
  rcases alloc_page_at_spec b hb with hno | ⟨p, htook⟩
  · have hsame := h.recount hno.map hno.pageStart hno.pageEnd
    rw [hno.pagesFree] at hsame
    rw [hno.ret]
    by_cases hone : b.pagesFree.toInt ≤ 1
    · rw [if_pos hone] at hsame
      rw [if_pos (hfew.mpr hone)]
      exact ⟨hsame, rfl⟩
    have hnone : o.allocPageScan o.totalPages.toNat o.cursorPageBase = none := by
      cases hs : o.allocPageScan o.totalPages.toNat o.cursorPageBase with
      | none => rfl
      | some q =>
        rw [hs] at hscan
        have hq := (hno.reason.resolve_left hone) q.toNat ((h.isFree_iff q).mp hscan.2.1)
        have := hscan.1
        rw [h.cursor] at this
        omega
    rw [if_neg hone, ← h.pagesFree] at hsame
    rw [if_neg (hfew.not.mpr hone), hnone]
    exact ⟨hsame, rfl⟩
  have hp := ((mem_freePages b p).mp htook.mem).1
  have hnat := h.toNat_ofNat hp
  have hsome : o.allocPageScan o.totalPages.toNat o.cursorPageBase = some (BitVec.ofNat 32 p) := by
    refine o.allocPageScan_eq_some (by omega) ?_ ((h.isFree_iff _).mpr (hnat.symm ▸ htook.mem)) fun q hlo hqfree => ?_
    · have := htook.cursor
      rw [hnat, h.cursor]
      omega
    · rw [hnat]
      exact htook.lowest q.toNat ((h.isFree_iff q).mp hqfree) (by rw [h.cursor] at hlo; omega)
  have hbefore := htook.before
  have hne : o.pagesFree - 1 ≠ 0 := by
    rw [h.pagesFree]
    bv_omega
  rw [if_neg (hfew.not.mpr (by omega)), hsome]
  simp only [if_neg hne]
  refine ⟨?_, htook.ret⟩
  have hset := @setFree b o (allocPage b).1 (BitVec.ofNat 32 p) (BitVec.ofNat 32 p / 32 * 32) h (by omega) false
    (fun q => ?_) htook.pageEnd ?_
  · rw [htook.pagesFree, ← h.pagesFree] at hset
    exact hset
  · rw [htook.free, hnat]
    by_cases hq : q = p <;> simp [hq]
  · rw [htook.pageStart, toNat_dwordBase, hnat]
    omega

theorem of_released {b' : PhysBitmap} {page cursor : BitVec 32} (h : Corresponds b o) (hpage : page.toNat < b.pages)
    (hr : Released b page.toNat b') (hcursor : cursor.toNat = 8 * b'.pageStart.toNat) :
    Corresponds b' { o.setFree page true with
      pagesFree := if o.isFree page then o.pagesFree else o.pagesFree + 1
      cursorPageBase := cursor } := by
  have hcount : b'.pagesFree = if o.isFree page then o.pagesFree else o.pagesFree + 1 := by
    rw [hr.pagesFree, ← h.pagesFree, ← h.free page hpage]
    split_ifs
    · exact add_zero _
    · rfl
  rw [← hcount]
  refine h.setFree hpage true (fun q => ?_) hr.pageEnd hcursor
  rw [hr.free]
  by_cases hq : q = page.toNat <;> simp [hq]

theorem free_page (h : Corresponds b o) {phys : BitVec 32} (hpage : phys.toNat / 4096 < b.pages) :
    Corresponds (freePage b phys) (o.freePage phys) := by
  have hnat : (phys >>> 12).toNat = phys.toNat / 4096 := by
    rw [toNat_ushiftRight, shiftRight_eq_div_pow]
  obtain ⟨hr, hstart⟩ := free_page_spec b phys
  rw [← hnat] at hpage hr hstart
  have hlt := h.lt_total.mpr hpage
  unfold IndependentBitmap.freePage
  rw [if_neg (by simpa using hlt)]
  refine h.of_released hpage hr ?_
  rw [hstart]
  split_ifs with hlow <;> rw [lt_def, toNat_dwordBase, h.cursor] at hlow
  · rw [toNat_dwordBase]
    omega
  · rw [h.cursor]
    omega

theorem release (h : Corresponds b o) {page : BitVec 32} (hpage : page.toNat < b.pages) :
    Corresponds (releaseBitmapPageModeB b page).1 (o.step (.releaseBitmapPageModeB page)).1 ∧
      (releaseBitmapPageModeB b page).2 = (o.step (.releaseBitmapPageModeB page)).2 := by
  obtain ⟨hr, hstart⟩ := release_bitmap_page_mode_b_spec b page
  have hdelta := (bitmap_bts_free_delta_spec b page).2
  have hlt := h.lt_total.mpr hpage
  have hcorr := h.of_released hpage hr (h.cursor.trans (by rw [hstart]))
  unfold IndependentBitmap.step IndependentBitmap.releaseBitmapPage
  dsimp only
  rw [if_neg (by simpa using hlt)]
  constructor
  · convert hcorr using 2
    · split_ifs
      · exact add_zero _
      · rfl
    · exact o.setFree_cursorPageBase page true
  · rw [h.free page hpage]
    exact hdelta

/-! ## A run of pages -/

theorem byteFree_iff (h : Corresponds b o) {k : Nat} (hk : k < b.pageEnd.toNat) :
    o.byteFree k = true ↔ b.map k = 0xFF := by
  have hbit : ∀ j < 8, o.isFree (BitVec.ofNat 32 (k * 8) + BitVec.ofNat 32 j) = (b.map k).getLsbD j := by
    intro j hj
    have hlt : k * 8 + j < b.pages := by unfold PhysBitmap.pages; omega
    rw [← ofNat_add, h.free _ (by rw [h.toNat_ofNat hlt]; exact hlt), h.toNat_ofNat hlt, PhysBitmap.free,
      show (k * 8 + j) / 8 = k by omega, show (k * 8 + j) % 8 = j by omega]
  have hfull : ∀ j < 8, (0xFF : BitVec 8).getLsbD j = true := by decide
  unfold IndependentBitmap.byteFree
  rw [all_eq_true]
  simp only [mem_range]
  constructor
  · intro hall
    refine eq_of_getLsbD_eq fun j hj => ?_
    rw [← hbit j hj, hall j hj, hfull j hj]
  · intro hmap j hj
    rw [hbit j hj, hmap, hfull j hj]

theorem allocPagesScan_spec (h : Corresponds b o) {need fuel byte : Nat} (hneed : 0 < need)
    (hfuel : b.pageEnd.toNat < byte + fuel) :
    match o.allocPagesScan b.pageEnd.toNat need fuel byte with
    | none => ∀ off, ¬ RunAt b.map byte b.pageEnd.toNat need off
    | some off => FirstRun b.map byte b.pageEnd.toNat need off := by
  induction fuel generalizing byte with
  | zero => exact not_runAt (by omega)
  | succ fuel ih =>
    unfold IndependentBitmap.allocPagesScan
    by_cases hlt : byte < b.pageEnd.toNat
    · rw [if_pos hlt]
      by_cases hroom : byte + need > b.pageEnd.toNat
      · rw [if_pos hroom]
        exact not_runAt hroom
      rw [if_neg hroom]
      cases hfind : (List.range need).find? fun k => !o.byteFree (byte + k) with
      | none =>
        rw [List.find?_range_eq_none] at hfind
        refine ⟨⟨le_rfl, by omega, fun x hlo hhi => ?_⟩, fun q hq => hq.start⟩
        have hx := hfind (x - byte) (by omega)
        rw [Nat.add_sub_cancel' hlo, Bool.not_not] at hx
        exact (h.byteFree_iff (by omega)).mp hx
      | some k =>
        obtain ⟨hk, hmem, -⟩ := List.find?_range_eq_some.mp hfind
        rw [mem_range] at hmem
        have hbyte : b.map (byte + k) ≠ 0xFF := fun he => by
          rw [(h.byteFree_iff (by omega)).mpr he] at hk
          cases hk
        have hrest := @ih (byte + k + 1) (by omega)
        dsimp only
        cases hscan : o.allocPagesScan b.pageEnd.toNat need fuel (byte + k + 1) with
        | none =>
          rw [hscan] at hrest
          exact fun off hat => hrest off (hat.behind hbyte (by omega))
        | some off =>
          rw [hscan] at hrest
          exact hrest.behind hbyte (by omega) (by omega)
    · rw [if_neg hlt]
      exact not_runAt (by omega)

theorem mem_bytes {byte n : Nat} (hfits : 8 * (byte + n) ≤ 2 ^ 32) (q : BitVec 32) :
    (q ∈ (List.range n).flatMap fun k => (List.range 8).map fun j =>
      BitVec.ofNat 32 ((byte + k) * 8) + BitVec.ofNat 32 j) ↔ 8 * byte ≤ q.toNat ∧ q.toNat < 8 * (byte + n) := by
  simp only [mem_flatMap, mem_map, mem_range, ← BitVec.ofNat_add]
  constructor
  · rintro ⟨k, hk, j, hj, rfl⟩
    rw [BitVec.toNat_ofNat, mod_eq_of_lt (by omega)]
    omega
  · rintro ⟨hlo, hhi⟩
    refine ⟨q.toNat / 8 - byte, by omega, q.toNat % 8, mod_lt _ (by decide), ?_⟩
    rw [show (byte + (q.toNat / 8 - byte)) * 8 + q.toNat % 8 = q.toNat by omega]
    simp

theorem alloc_pages (h : Corresponds b o) (hsmall : b.pagesFree.toNat < 2 ^ 31) (count : BitVec 32) :
    Corresponds (allocPages b count).1 (o.allocPages count).1 ∧
      (allocPages b count).2 = (o.allocPages count).2.getD 0 := by
  have hfew : o.pagesFree < 9 ↔ (b.pagesFree - 9).toInt < 0 := by
    rw [h.pagesFree, toInt_eq_toNat_cond]
    split_ifs <;> bv_omega
  have hbig : (count + 7) >>> 3 > (o.pagesFree - 9) >>> 3 ↔
      ((count + 7) >>> 3).toInt > ((b.pagesFree - 9) >>> 3).toInt := by
    have hthree : ∀ x : BitVec 32, (x >>> 3).toNat < 2 ^ 31 := by
      intro x
      rw [toNat_ushiftRight, shiftRight_eq_div_pow]
      omega
    rw [h.pagesFree, gt_iff_lt, lt_def, toInt_of_small (hthree _), toInt_of_small (hthree _), gt_iff_lt, Int.ofNat_lt]
  unfold IndependentBitmap.allocPages
  dsimp only
  by_cases hpassed : ¬ (b.pagesFree - 9).toInt < 0 ∧ ¬ ((count + 7) >>> 3).toInt > ((b.pagesFree - 9) >>> 3).toInt ∧
      (count + 7) >>> 3 ≠ 0
  · obtain ⟨h1, h2, h3⟩ := hpassed
    have hneed := (need_le_avail b.pagesFree count h1 h2 h3).1
    have hpos : ((count + 7) >>> 3).toNat ≠ 0 := fun hz => h3 (eq_of_toNat_eq hz)
    have hbytes : (o.totalPages / 8).toNat = b.pageEnd.toNat ∧ (o.cursorPageBase / 8).toNat = b.pageStart.toNat := by
      have h8 : (8 : BitVec 32).toNat = 8 := rfl
      rw [toNat_udiv, toNat_udiv, h8, h.total, h.cursor, PhysBitmap.pages]
      omega
    rw [if_neg (hfew.not.mpr h1), if_neg (hbig.not.mpr h2), if_neg h3, hbytes.1, hbytes.2, hneed]
    have hscan := @allocPagesScan_spec b o h ((count.toNat + 7) / 8) (b.pageEnd.toNat + 1) b.pageStart.toNat (by omega)
      (by omega)
    cases hs : o.allocPagesScan b.pageEnd.toNat ((count.toNat + 7) / 8) (b.pageEnd.toNat + 1) b.pageStart.toNat with
    | none =>
      rw [hs] at hscan
      rcases alloc_pages_of_passed h1 h2 h3 with ⟨-, heq⟩ | ⟨off, hfirst, -⟩
      · rw [heq]
        exact ⟨h, rfl⟩
      · exact absurd hfirst.run (hscan off)
    | some off =>
      rw [hs] at hscan
      rcases alloc_pages_of_passed h1 h2 h3 with ⟨hnone, -⟩ | ⟨off', hfirst, heq⟩
      · exact absurd hscan.run (hnone off)
      obtain rfl : off' = off := le_antisymm (hfirst.lowest _ hscan.run) (hscan.lowest _ hfirst.run)
      have hfits : 8 * (off' + (count.toNat + 7) / 8) ≤ 2 ^ 32 := by
        have := hfirst.run.inside
        have htotal := o.totalPages.isLt
        rw [h.total, PhysBitmap.pages] at htotal
        omega
      rw [heq]
      dsimp only
      rw [IndependentBitmap.foldl_clearByte, charge_eq hneed, h.pagesFree]
      obtain ⟨htotal, hcursor, hfree⟩ := o.foldl_clear _
      refine ⟨⟨fun p hp => ?_, (congrArg _ hcursor).trans h.cursor, rfl, (congrArg _ htotal).trans h.total⟩, rfl⟩
      refine (IndependentBitmap.isFree_congr rfl rfl p).trans ((hfree p).trans ?_)
      rw [h.free p hp]
      simp only [mem_bytes hfits]
      exact (clearBytes_bit ..).symm
  · rw [alloc_pages_of_not_passed hpassed]
    split_ifs with h1 h2 h3
    · exact ⟨h, rfl⟩
    · exact ⟨h, rfl⟩
    · exact ⟨h, rfl⟩
    · exact absurd ⟨hfew.not.mp h1, hbig.not.mp h2, h3⟩ hpassed

theorem step (hb : b.Bounded) (h : Corresponds b o) (hsmall : b.pagesFree.toNat < 2 ^ 31) {op : Op}
    (hop : op.Inside b.pages) :
    Corresponds (Bitmap.step b op).1 (o.step op).1 ∧ (Bitmap.step b op).2 = (o.step op).2 := by
  cases op with
  | allocPage => exact h.alloc_page hb hsmall
  | allocPages count => exact h.alloc_pages hsmall count
  | freePage phys => exact ⟨h.free_page (hop _ rfl), rfl⟩
  | releaseBitmapPageModeB page => exact h.release (hop _ rfl)

end Corresponds

/-! ## Runs -/

/-- The counter stays below 2 ^ 31, where the signed and the unsigned tests agree. -/
def Simulates (n : Nat) (b : PhysBitmap) (o : IndependentBitmap) : Prop :=
  Corresponds b o ∧ b.Bounded ∧ b.pages = n ∧ ∃ d ≤ 1, b.pagesFree.toNat = b.freePages.card + d

theorem step_simulates (n : Nat) (b : PhysBitmap) (o : IndependentBitmap) (op : Op) (h : Simulates n b o)
    (hop : op.Inside n) : Simulates n (step b op).1 (o.step op).1 ∧ (step b op).2 = (o.step op).2 := by
  obtain ⟨hcorr, hb, rfl, d, hd, hcount⟩ := h
  have hle := freePages_card_le b hb
  obtain ⟨hnext, hout⟩ := hcorr.step hb (by omega) hop
  obtain ⟨hend, hstart⟩ := step_start_end b op hb
  refine ⟨⟨hnext, ⟨hstart, by rw [hend]; exact hb.end_aligned, by rw [hend]; exact hb.end_lt⟩, step_pages b op hb, ?_⟩,
    hout⟩
  rcases step_count b op hb hop hd hcount with ⟨hcount', -⟩ | ⟨-, hcount'⟩
  · exact ⟨d, hd, hcount'⟩
  · exact ⟨1, le_rfl, hcount'⟩

/-- **The byte map refines the set.** Both give the same answers in every run. -/
theorem bitmap_refines_set (b : PhysBitmap) (o : IndependentBitmap) (ops : List Op) (hb : b.Bounded)
    (hcorr : Corresponds b o) (hcount : b.pagesFree.toNat = b.freePages.card)
    (hops : ∀ op ∈ ops, op.Inside b.pages) :
    (trace step b ops).map (·.output) = (trace IndependentBitmap.step o ops).map (·.output) ∧
      Corresponds (final step b ops) (final IndependentBitmap.step o ops) := by
  obtain ⟨hfinal, houts⟩ := simulates (step_simulates b.pages)
    (show Simulates b.pages b o from ⟨hcorr, hb, rfl, 0, zero_le 1, hcount⟩) hops
  exact ⟨houts, hfinal.1⟩

def smallSet : IndependentBitmap := ⟨fun i => if i = 0 then 0xFFFFFFFF00000000 else 0, 32, 32, 64⟩

theorem bitmap_refines_set_small :
    Corresponds smallMap smallSet ∧
      (trace IndependentBitmap.step smallSet [.allocPage, .allocPages 9, .freePage 0x20000]).map (·.output) =
        [0x20000, 0x28000, 0] := by
  have hcorr : Corresponds smallMap smallSet := by
    refine ⟨fun p hp => ?_, rfl, rfl, rfl⟩
    have hall : ∀ k < 64, smallSet.isFree (BitVec.ofNat 32 k) = smallMap.free k := by decide +kernel
    have := hall p.toNat hp
    rwa [ofNat_toNat, setWidth_eq] at this
  have hops : ∀ op ∈ [Op.allocPage, .allocPages 9, .freePage 0x20000], op.Inside smallMap.pages := by
    intro op hop p hp
    simp only [mem_cons, not_mem_nil, or_false] at hop
    rcases hop with rfl | rfl | rfl <;> simp [Op.released] at hp
    subst hp
    decide
  refine ⟨hcorr, ?_⟩
  rw [← (bitmap_refines_set smallMap smallSet _ smallMap_valid.bounded hcorr (by decide +kernel) hops).1]
  decide +kernel

def hugeMap : PhysBitmap := ⟨fun _ => 0xFF, 4, 0x10000000, 0x80000000⟩

def hugeSet : IndependentBitmap := ⟨fun _ => BitVec.allOnes 64, 0x80000000, 32, 0x80000000⟩

/-- With 2 ^ 31 free pages the counter is negative for `alloc_page`. -/
theorem bitmap_refines_set_signed :
    ¬ ∀ (b : PhysBitmap) (o : IndependentBitmap) (ops : List Op), b.pageStart.toNat % 4 = 0 →
      b.pageEnd.toNat % 4 = 0 → Corresponds b o → b.pagesFree.toNat = b.freePages.card →
      (∀ op ∈ ops, op.Inside b.pages) →
      (trace step b ops).map (·.output) = (trace IndependentBitmap.step o ops).map (·.output) := by
  intro h
  have hfree : ∀ p : BitVec 32, hugeSet.isFree p = decide (p < hugeSet.totalPages) := by
    intro p
    have hp : p.toNat % 64 < 64 := mod_lt _ (by decide)
    rw [IndependentBitmap.isFree_eq, show hugeSet.words _ = BitVec.allOnes 64 from rfl, getLsbD_allOnes,
      decide_eq_true hp, Bool.and_true]
  have hpages : hugeMap.freePages = Finset.range (2 ^ 31) :=
    Finset.filter_true_of_mem fun p _ => free_of_byte hugeMap p rfl
  have hcorr : Corresponds hugeMap hugeSet := by
    refine ⟨fun p hp => ?_, rfl, rfl, rfl⟩
    rw [hfree, free_of_byte hugeMap p.toNat rfl, decide_eq_true_eq, lt_def]
    exact hp
  have hout := h hugeMap hugeSet [.allocPage] rfl rfl hcorr (by rw [hpages, Finset.card_range]; rfl)
    (fun op hop p hp => by obtain rfl := mem_singleton.mp hop; cases hp)
  exact absurd hout (by decide)

end Kolibri.Bitmap
