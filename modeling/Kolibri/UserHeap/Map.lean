import Kolibri.UserHeap.Free

/-!
# Pages of a block that come and go

`user_unmap` gives back pages of a block that stays, and `user_ring` maps a run of frames.
-/

namespace Kolibri.UserHeap

open Tiling Bitmap Paging Function

variable {P : Kind → Nat → Prop} {h : Heap} {l : List (Kind × Nat)}

def HeaderOk (h : Heap) (c : Nat) : Prop :=
  (h.heapBase / 4096 ≤ c ∧ c < topPage) ∨ h.tabs c &&& memBlockUsed = 0
  deriving Decidable

variable {base offset size edi : BitVec 32}

theorem headerIndex_add_one (hc : headerIndex (base.toNat / 4096) < topPage) :
    base.toNat / 4096 = headerIndex (base.toNat / 4096) + 1 := by
  unfold topPage at hc
  unfold headerIndex at hc ⊢
  omega

/-! ## `user_unmap` -/

def unmapStart (base offset : BitVec 32) : Nat := (offset + base).toNat / 4096

def unmapCount (size : BitVec 32) : Nat := (size.toNat + 4095) % 2 ^ 32 / 4096

theorem user_unmap_spec (ht : Tiled P h l) (hquiet : ∀ k e, P k e → e &&& memBlockUsed = 0)
    (hres : ∀ k e, P k e → Present e → P k memBlockReserved) (hheader : HeaderOk h (headerIndex (base.toNat / 4096)))
    (hcount : unmapCount size ≠ 0) :
    userUnmap h base offset size = (h, 0) ∨ ∃ h', userUnmap h base offset size = (h', 1) ∧ Tiled P h' l ∧
      h'.heapBase = h.heapBase ∧ unmapStart base offset + unmapCount size ≤ topPage ∧
      (∀ i, h'.tabs i =
        if unmapStart base offset ≤ i ∧ i < unmapStart base offset + unmapCount size ∧ Private (h.tabs i)
        then memBlockReserved else h.tabs i) ∧
      Gave h.bitmap (Selected Private h.tabs (unmapStart base offset) (unmapCount size)) h'.bitmap := by
  unfold userUnmap
  simp only
  split_ifs with hbase hhigh hused hfixed hfit hzero
  · exact .inl rfl
  · exact .inl rfl
  · exact .inl rfl
  · exact .inl rfl
  · exact .inl rfl
  · exact absurd hzero hcount
  right
  obtain ⟨hlo, hhi⟩ := hheader.resolve_right hused
  obtain ⟨k, n, hlive⟩ := live_of_used_bit hquiet ht.row hlo hhi hused
  obtain ⟨-, hblock, -, hend⟩ := ht.occurs hlive.1
  rw [hblock.1, hdr_div] at hfit
  -- The end of the block bounds the range.
  have hrange : unmapStart base offset + unmapCount size ≤ topPage := by
    have hindex := headerIndex_add_one hhi
    unfold unmapStart unmapCount topPage
    omega
  unfold topPage at hrange
  obtain ⟨tabs', b, hloop, htabs, hgave⟩ := user_unmap_loop_spec (unmapCount size) h
    (by omega : unmapStart base offset < 2 ^ 30) (by omega)
  refine ⟨{ h with tabs := tabs', bitmap := b }, ?_, ?_, rfl, hrange, htabs, hgave⟩
  · rw [← hloop]
    rfl
  refine tiled_rewrite ht (fun i => ?_) ⟨rfl, rfl⟩
  dsimp only
  rw [htabs]
  by_cases hi : unmapStart base offset ≤ i ∧ i < unmapStart base offset + unmapCount size ∧ Private (h.tabs i)
  · rw [if_pos hi]
    exact .inr ⟨present_ne_hdr hi.2.2.1, fun k hk => hres k _ hk hi.2.2.1⟩
  · rw [if_neg hi]
    exact .inl rfl

/-! ### What `user_unmap` may touch -/

def InBlock (h : Heap) (l : List (Kind × Nat)) (base : BitVec 32) (i : Nat) : Prop :=
  ∃ c k n, Live (h.heapBase / 4096) l c k n ∧ base.toNat / 4096 = c + 1 ∧ c < i ∧ i < c + n

def InRange (base offset size : BitVec 32) (x : Nat) : Prop :=
  (offset + base).toNat ≤ x ∧ x < (offset + base).toNat + size.toNat

theorem not_inRange_zero (base offset : BitVec 32) (x : Nat) : ¬ InRange base offset 0 x := by
  rintro ⟨hlo, hhi⟩
  rw [show (0 : BitVec 32).toNat = 0 from rfl] at hhi
  omega

/-- A page of the block that has bytes of the range. -/
def Unmappable (h : Heap) (l : List (Kind × Nat)) (base offset size : BitVec 32) (i : Nat) : Prop :=
  InBlock h l base i ∧ ∃ x, InRange base offset size x ∧ x / 4096 = i

structure Contained (h : Heap) (l : List (Kind × Nat)) (base offset size : BitVec 32) (r : Heap × BitVec 32) : Prop where
  tabs : ∀ i, r.1.tabs i ≠ h.tabs i → Unmappable h l base offset size i
  released : ∀ q, r.1.bitmap.free q = true →
    h.bitmap.free q = true ∨ ∃ i, Unmappable h l base offset size i ∧ pageOf (h.tabs i) = q
  rest : r.1.heapBase = h.heapBase ∧ r.1.heapTop = h.heapTop ∧ r.1.memUsed = h.memUsed
  refused : (∃ x, InRange base offset size x ∧ ¬ InBlock h l base (x / 4096)) → r = (h, 0)

def UnmapRefused (h : Heap) (base offset size : BitVec 32) : Prop :=
  let eax := h.tabs (headerIndex (base.toNat / 4096))
  base = 0 ∨ 2 ^ 31 ≤ (offset + base).toNat ∨ eax &&& memBlockUsed = 0 ∨ eax &&& memBlockDontFree ≠ 0 ∨
    base.toNat / 4096 + eax / 4096 - 1 < unmapStart base offset + unmapCount size
  deriving Decidable

def UnmapInside (h : Heap) (l : List (Kind × Nat)) (base offset size : BitVec 32) : Prop :=
  size ≠ 0 ∧ ∃ c k n, Live (h.heapBase / 4096) l c k n ∧ base.toNat / 4096 = c + 1 ∧
    4096 * (c + 1) ≤ (offset + base).toNat ∧ (offset + base).toNat + size.toNat ≤ 4096 * (c + n)

theorem user_unmap_refused (href : UnmapRefused h base offset size) : userUnmap h base offset size = (h, 0) := by
  unfold userUnmap
  simp only
  split_ifs with hbase hhigh hused hfixed hfit hzero
  · rfl
  · rfl
  · rfl
  · rfl
  · rfl
  all_goals
    rcases href with href | href | href | href | href
    · exact absurd href hbase
    · exact absurd href hhigh
    · exact absurd href hused
    · exact absurd href hfixed
    · exact absurd href hfit

theorem user_unmap_accepted (hacc : ¬ UnmapRefused h base offset size) :
    userUnmap h base offset size =
      (userUnmapLoop (if unmapCount size = 0 then 2 ^ 32 else unmapCount size) h (unmapStart base offset), 1) := by
  simp only [UnmapRefused, not_or] at hacc
  obtain ⟨hbase, hhigh, hused, hfixed, hfit⟩ := hacc
  unfold userUnmap
  simp only [if_neg hbase, if_neg hhigh, if_neg hused, if_neg hfixed]
  exact if_neg hfit

theorem unmapStart_lt (base offset : BitVec 32) : unmapStart base offset < 2 ^ 30 := by
  unfold unmapStart
  omega

theorem user_unmap_none (hacc : ¬ UnmapRefused h base offset 0) :
    ∃ tabs b, userUnmap h base offset 0 = ({ h with tabs, bitmap := b }, 1) ∧
      (∀ i, tabs i = if i < 2 ^ 30 ∧ Private (h.tabs i) then memBlockReserved else h.tabs i) ∧
      Gave h.bitmap (fun q => ∃ i, i < 2 ^ 30 ∧ Private (h.tabs i) ∧ pageOf (h.tabs i) = q) b := by
  obtain ⟨tabs, b, hloop, htabs, hgave⟩ := user_unmap_loop_visited (2 ^ 32) h (unmapStart_lt base offset)
  have hall : ∀ i, Visited (unmapStart base offset) (2 ^ 32) i ↔ i < 2 ^ 30 := by
    intro i
    unfold Visited
    omega
  simp only [hall] at htabs hgave
  refine ⟨tabs, b, ?_, htabs, hgave⟩
  rw [user_unmap_accepted hacc, if_pos (by rfl), hloop]

theorem UnmapInside.unmappable (hin : UnmapInside h l base offset size) (ht : Tiled P h l) :
    unmapCount size ≠ 0 ∧ unmapStart base offset + unmapCount size ≤ 2 ^ 30 ∧
      (∀ i, unmapStart base offset ≤ i → i < unmapStart base offset + unmapCount size →
        Unmappable h l base offset size i) ∧
      ∀ x, InRange base offset size x → InBlock h l base (x / 4096) := by
  obtain ⟨hsize, c, k, n, hlive, hbase, hlo, hhi⟩ := hin
  have hend := (ht.occurs hlive.1).2.2.2
  have hpos : size.toNat ≠ 0 := fun hz => hsize (BitVec.eq_of_toNat_eq hz)
  unfold unmapStart unmapCount
  refine ⟨by omega, by omega, fun i h1 h2 => ⟨⟨c, k, n, hlive, hbase, by omega, by omega⟩, ?_⟩, fun x hx => ?_⟩
  · -- The first byte of the page, or of the range.
    refine ⟨max (offset + base).toNat (4096 * i), ⟨by omega, by omega⟩, by omega⟩
  · unfold InRange at hx
    exact ⟨c, k, n, hlive, hbase, by omega, by omega⟩

/-- **What `user_unmap` touches** is inside the block exactly if a test refuses the call or the range is in the block. -/
theorem user_unmap_contained_iff {P : Kind → Nat → Prop} {h : Heap} {l : List (Kind × Nat)} (ht : Tiled P h l)
    (base offset size : BitVec 32) :
    Contained h l base offset size (userUnmap h base offset size) ↔
      UnmapRefused h base offset size ∨ UnmapInside h l base offset size ∨
        (size = 0 ∧ ∀ i, i < 2 ^ 30 → ¬ Private (h.tabs i)) := by
  by_cases href : UnmapRefused h base offset size
  · rw [user_unmap_refused href]
    refine ⟨fun _ => .inl href, fun _ => ⟨?_, ?_, ⟨rfl, rfl, rfl⟩, fun _ => rfl⟩⟩
    · intro i hi
      exact absurd rfl hi
    · intro q hq
      exact .inl hq
  constructor
  · intro hc
    right
    by_cases hsize : size = 0
    · subst hsize
      right
      obtain ⟨tabs, b, hcall, htabs, -⟩ := user_unmap_none href
      refine ⟨rfl, fun i hi hpriv => ?_⟩
      have hchange : tabs i ≠ h.tabs i := by
        rw [htabs, if_pos ⟨hi, hpriv⟩]
        intro heq
        rw [← heq] at hpriv
        exact absurd hpriv (by decide)
      rw [hcall] at hc
      obtain ⟨-, x, hx, -⟩ := hc.tabs i hchange
      exact not_inRange_zero base offset x hx
    left
    have hone : (userUnmap h base offset size) ≠ (h, 0) := by
      rw [user_unmap_accepted href]
      intro heq
      have hcode : (1 : BitVec 32) = 0 := congrArg Prod.snd heq
      exact absurd hcode (by decide)
    have hbytes : ∀ x, InRange base offset size x → InBlock h l base (x / 4096) := by
      intro x hx
      by_contra hno
      exact hone (hc.refused ⟨x, hx, hno⟩)
    have hpos : size.toNat ≠ 0 := fun hz => hsize (BitVec.eq_of_toNat_eq hz)
    obtain ⟨c, k, n, hlive, hbase, hlo, -⟩ := hbytes (offset + base).toNat ⟨by omega, by omega⟩
    obtain ⟨c', k', n', hlive', hbase', -, hhi⟩ :=
      hbytes ((offset + base).toNat + size.toNat - 1) ⟨by omega, by omega⟩
    obtain rfl : c = c' := by omega
    obtain ⟨-, rfl⟩ := ht.live_unique hlive hlive'
    exact ⟨hsize, c, k, n, hlive, hbase, by omega, by omega⟩
  · rintro (hr | hin | ⟨rfl, hnone⟩)
    · exact absurd hr href
    · obtain ⟨hcount, hfit, hpages, hbytes⟩ := hin.unmappable ht
      obtain ⟨tabs, b, hloop, htabs, hgave⟩ := user_unmap_loop_spec (unmapCount size) h
        (unmapStart_lt base offset) hfit
      rw [user_unmap_accepted href, if_neg hcount, hloop]
      refine ⟨fun i hi => ?_, fun q hq => ?_, ⟨rfl, rfl, rfl⟩, ?_⟩
      · simp only [htabs, ne_eq, ite_eq_right_iff, not_forall] at hi
        obtain ⟨⟨hlo, hhi, -⟩, -⟩ := hi
        exact hpages i hlo hhi
      · rcases (hgave.free q).mp hq with hold | ⟨i, hlo, hhi, -, hpage⟩
        · exact .inl hold
        · exact .inr ⟨i, hpages i hlo hhi, hpage⟩
      · rintro ⟨x, hx, hno⟩
        exact absurd (hbytes x hx) hno
    · obtain ⟨tabs, b, hcall, htabs, hgave⟩ := user_unmap_none href
      rw [hcall]
      refine ⟨fun i hi => ?_, fun q hq => ?_, ⟨rfl, rfl, rfl⟩, ?_⟩
      · simp only [htabs, ne_eq, ite_eq_right_iff, not_forall] at hi
        obtain ⟨⟨hlt, hpriv⟩, -⟩ := hi
        exact absurd hpriv (hnone i hlt)
      · rcases (hgave.free q).mp hq with hold | ⟨i, hlt, hpriv, -⟩
        · exact .inl hold
        · exact absurd hpriv (hnone i hlt)
      · rintro ⟨x, hx, -⟩
        exact absurd hx (not_inRange_zero base offset x)

def mappedHeap : Heap where
  tabs i :=
    if i = 1 then hdr .used 3 else if i = 2 then 0x20007 else if i = 4 then hdr .used 2
    else if i = 5 then 0x21007 else if i = 6 then hdr .free 0x7FFFA else 0
  heapBase := 0x1000
  heapTop := heapTopAddr
  memUsed := 0x4000
  bitmap := ⟨fun _ => 0, 0, 8, 1⟩

def mappedRow : List (Kind × Nat) := [(.used, 3), (.used, 2), (.free, 0x7FFFA)]

theorem mappedHeap_tiled : Tiled (fun _ _ => True) mappedHeap mappedRow := by
  refine ⟨rfl, rfl, ?_⟩
  simp [Row, mappedRow, Tiles, Block, mappedHeap, topPage]

theorem user_unmap_contained_small :
    Contained mappedHeap mappedRow 0x5000 0 0x1000 (userUnmap mappedHeap 0x5000 0 0x1000) := by
  refine (user_unmap_contained_iff mappedHeap_tiled 0x5000 0 0x1000).mpr (.inr (.inl ⟨by decide, 4, .used, 2, ?_⟩))
  refine ⟨⟨?_, by decide⟩, by decide, by decide, by decide⟩
  simp [mappedRow, Occurs, mappedHeap]

/-- An offset below 0, a range that ends behind the block, and a size of 0, which unmaps all. -/
theorem user_unmap_escapes :
    Tiled (fun _ _ => True) mappedHeap mappedRow ∧
    ¬ Contained mappedHeap mappedRow 0x5000 (-0x3000) 0x1000 (userUnmap mappedHeap 0x5000 (-0x3000) 0x1000) ∧
    ¬ Contained mappedHeap mappedRow 0x5000 0x800 0x1000 (userUnmap mappedHeap 0x5000 0x800 0x1000) ∧
    ¬ Contained mappedHeap mappedRow 0x5000 0 0 (userUnmap mappedHeap 0x5000 0 0) := by
  refine ⟨mappedHeap_tiled, fun hc => ?_, fun hc => ?_, fun hc => ?_⟩
  · have hchange : (userUnmap mappedHeap 0x5000 (-0x3000) 0x1000).1.tabs 2 ≠ mappedHeap.tabs 2 := by decide +kernel
    obtain ⟨⟨c, k, n, -, hbase, hlo, -⟩, -⟩ := hc.tabs 2 hchange
    simp at hbase
    omega
  · have hsuccess : (userUnmap mappedHeap 0x5000 0x800 0x1000).2 = 1 := by decide +kernel
    rw [hc.refused ⟨0x6000, ⟨by decide, by decide⟩, ?_⟩] at hsuccess
    · exact absurd hsuccess (by decide)
    · rintro ⟨c, k, n, hlive, hbase, -, hhi⟩
      simp [Live, mappedRow, Occurs, mappedHeap] at hlive hbase
      omega
  · have hacc : ¬ UnmapRefused mappedHeap 0x5000 0 0 := by decide +kernel
    obtain ⟨tabs, b, hcall, htabs, -⟩ := user_unmap_none hacc
    have hchange : tabs 2 ≠ mappedHeap.tabs 2 := by
      rw [htabs]
      decide
    rw [hcall] at hc
    obtain ⟨-, x, hx, -⟩ := hc.tabs 2 hchange
    exact not_inRange_zero _ _ x hx

/-! ## `user_ring` -/

theorem user_ring_loop_spec (pteMask : BitVec 32) (n : Nat) (tabs : Nat → Nat) (esi : Nat) (edi : BitVec 32)
    (hfit : esi + n ≤ 2 ^ 20) (i : Nat) :
    userRingLoop pteMask n tabs esi edi i =
      if esi ≤ i ∧ i < esi + n then (mapPage pteMask (edi + BitVec.ofNat 32 (4096 * (i - esi))) pgUwr).toNat
      else tabs i := by
  induction n generalizing tabs esi edi with
  | zero =>
    rw [if_neg (by omega)]
    rfl
  | succ n ih =>
    unfold userRingLoop
    rw [ih _ _ _ (by omega), Nat.mod_eq_of_lt (by omega)]
    by_cases hi : i = esi
    · subst hi
      rw [if_neg (by omega), update_self, if_pos (by omega), Nat.sub_self]
      simp
    rw [update_of_ne hi]
    by_cases hin : esi + 1 ≤ i ∧ i < esi + 1 + n
    · rw [if_pos hin, if_pos (by omega), BitVec.add_assoc, show (4096 : BitVec 32) = BitVec.ofNat 32 4096 from rfl,
        ← BitVec.ofNat_add, show 4096 + 4096 * (i - (esi + 1)) = 4096 * (i - esi) by omega]
    · rw [if_neg hin, if_neg (by omega)]

theorem ring_entry (pat pge : Bool) {f j : Nat} (hedi : edi.toNat = 4096 * f) (hj : f + j < 2 ^ 20) :
    (mapPage (pteValidMask pat pge) (edi + BitVec.ofNat 32 (4096 * j)) pgUwr).toNat = 4096 * (f + j) + 7 := by
  have hsum : (edi + BitVec.ofNat 32 (4096 * j)).toNat = 4096 * (f + j) := by
    rw [BitVec.toNat_add, BitVec.toNat_ofNat, hedi]
    omega
  rw [map_page_uwr pat pge (by rw [hsum]; omega), hsum]

theorem ring_tabs (pat pge : Bool) {f n esi : Nat} (tabs : Nat → Nat) (hedi : edi.toNat = 4096 * f)
    (hf : f + n ≤ 2 ^ 20) (hfit : esi + 2 * n ≤ 2 ^ 20) (i : Nat) :
    let tabs' := userRingLoop (pteValidMask pat pge) n (userRingLoop (pteValidMask pat pge) n tabs esi edi) (esi + n) edi
    (esi ≤ i ∧ i < esi + 2 * n ∧ ∃ j, j < n ∧ tabs' i = 4096 * (f + j) + 7) ∨
    (¬ (esi ≤ i ∧ i < esi + 2 * n) ∧ tabs' i = tabs i) := by
  intro tabs'
  have htabs' : tabs' i = _ := user_ring_loop_spec _ n _ (esi + n) edi (by omega) i
  rw [user_ring_loop_spec _ n tabs esi edi (by omega)] at htabs'
  split_ifs at htabs' with hsecond hfirst
  · rw [ring_entry pat pge hedi (by omega)] at htabs'
    exact .inl ⟨by omega, by omega, i - (esi + n), by omega, htabs'⟩
  · rw [ring_entry pat pge hedi (by omega)] at htabs'
    exact .inl ⟨by omega, by omega, i - esi, by omega, htabs'⟩
  · exact .inr ⟨by omega, htabs'⟩

end Kolibri.UserHeap
