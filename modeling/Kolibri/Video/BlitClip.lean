import Kolibri.Video.Blit

/-! # What clipping leaves of a request (`blit_clip`) -/

namespace Kolibri.Blit

open BitVec

theorem zero_toInt : (0 : BitVec 32).toInt = 0 := by decide

structure Axis where
  dst : BitVec 32
  src : BitVec 32
  len : BitVec 32
  srcLen : BitVec 32
  winLen : BitVec 32

namespace Axis

variable (a : Axis)

def srcFirst : BitVec 32 := if a.src.toInt < 0 then 0 else a.src

def srcLast : BitVec 32 := if a.srcLen.toInt < (a.src + a.len).toInt then a.srcLen else a.src + a.len

def lo : BitVec 32 := a.dst + a.srcFirst - a.src

def hi : BitVec 32 := a.lo - a.srcFirst + a.srcLast

def first : BitVec 32 := if a.lo.toInt < 0 then 0 else a.lo

def last : BitVec 32 := if (a.winLen + 1).toInt < a.hi.toInt then a.winLen + 1 else a.hi

def Accepted : Prop :=
  a.src.toInt < a.srcLen.toInt ∧ 0 ≤ (a.src + a.len).toInt ∧ a.lo.toInt < (a.winLen + 1).toInt ∧ 0 ≤ a.hi.toInt

def Drawn : Prop := a.Accepted ∧ a.first.toInt < a.last.toInt

theorem toInt_eq_toNat {x : BitVec 32} (h : 0 ≤ x.toInt) : x.toInt = x.toNat ∧ x.toNat < 2 ^ 31 := by
  rw [toInt_eq_toNat_cond] at h ⊢
  split_ifs at h ⊢ <;> omega

theorem toInt_winLen_add_one {a : Axis} (hwin : 0 ≤ a.winLen.toInt) (h : a.Accepted) :
    (a.winLen + 1).toInt = a.winLen.toInt + 1 := by
  obtain ⟨-, -, hlo, -⟩ := h
  have hmin := le_toInt a.lo
  obtain ⟨heq, hlt⟩ := toInt_eq_toNat hwin
  have hsucc : (a.winLen + 1).toNat = a.winLen.toNat + 1 := by bv_omega
  have hcond := toInt_eq_toNat_cond (a.winLen + 1)
  split_ifs at hcond <;> omega

theorem bounds {a : Axis} (hwin : 0 ≤ (a.winLen + 1).toInt) (h : a.Accepted) :
    0 ≤ a.first.toInt ∧ 0 ≤ a.last.toInt ∧ a.last.toInt ≤ (a.winLen + 1).toInt := by
  obtain ⟨-, -, hlo, hhi⟩ := h
  have hzero := zero_toInt
  unfold first last
  refine ⟨?_, ?_, ?_⟩ <;> split_ifs <;> omega

end Axis

/-! ## The two clips -/

def Meets (clipLo clipHi lo hi : BitVec 32) : Prop := lo.toInt < clipHi.toInt ∧ clipLo.toInt ≤ hi.toInt

theorem blockClip_of_meets {clip rect : Rect} (hx : Meets clip.left clip.right rect.left rect.right)
    (hy : Meets clip.top clip.bottom rect.top rect.bottom) :
    blockClip clip rect = (true, ⟨if rect.left.toInt < clip.left.toInt then clip.left else rect.left,
        if rect.top.toInt < clip.top.toInt then clip.top else rect.top,
        if clip.right.toInt < rect.right.toInt then clip.right else rect.right,
        if clip.bottom.toInt < rect.bottom.toInt then clip.bottom else rect.bottom⟩) := by
  unfold Meets at hx hy
  unfold blockClip
  dsimp only
  rw [if_neg (by omega), if_neg (by omega)]

theorem blockClip_of_not_meets {clip rect : Rect} (h : ¬ (Meets clip.left clip.right rect.left rect.right ∧
    Meets clip.top clip.bottom rect.top rect.bottom)) : (blockClip clip rect).1 = false := by
  unfold Meets at h
  unfold blockClip
  dsimp only
  by_cases hx : clip.right.toInt ≤ rect.left.toInt ∨ rect.right.toInt < clip.left.toInt
  · rw [if_pos hx]
  · rw [if_neg hx, if_pos (by omega)]

def geomOf (x y : Axis) : BlitterGeom where
  dc := ⟨0, 0, x.winLen + 1, y.winLen + 1⟩
  sc := ⟨0, 0, x.srcLen, y.srcLen⟩
  dstX := x.dst
  dstY := y.dst
  srcX := x.src
  srcY := y.src
  w := x.len
  h := y.len

variable {x y : Axis}

theorem blockClip_source (hx : Meets 0 x.srcLen x.src (x.src + x.len)) (hy : Meets 0 y.srcLen y.src (y.src + y.len)) :
    blockClip ⟨0, 0, x.srcLen, y.srcLen⟩ ⟨x.src, y.src, x.src + x.len, y.src + y.len⟩ =
      (true, ⟨x.srcFirst, y.srcFirst, x.srcLast, y.srcLast⟩) :=
  blockClip_of_meets hx hy

theorem blockClip_dest (hx : Meets 0 (x.winLen + 1) x.lo x.hi) (hy : Meets 0 (y.winLen + 1) y.lo y.hi) :
    blockClip ⟨0, 0, x.winLen + 1, y.winLen + 1⟩ ⟨x.lo, y.lo, x.hi, y.hi⟩ =
      (true, ⟨x.first, y.first, x.last, y.last⟩) :=
  blockClip_of_meets hx hy

theorem blitClip_accepted (hx : x.Accepted) (hy : y.Accepted) :
    blitClip (geomOf x y) = (true, { geomOf x y with
      w := x.last - x.first
      h := y.last - y.first
      srcX := x.src + x.first - x.dst
      srcY := y.src + y.first - y.dst
      dstX := x.first
      dstY := y.first }) := by
  have hdest := blockClip_dest hx.2.2 hy.2.2
  unfold Axis.hi Axis.lo at hdest
  unfold blitClip geomOf
  rw [blockClip_source ⟨hx.1, hx.2.1⟩ ⟨hy.1, hy.2.1⟩]
  dsimp only
  rw [if_neg (by simp), hdest]
  rfl

theorem blitClip_rejected (h : ¬ (x.Accepted ∧ y.Accepted)) : (blitClip (geomOf x y)).1 = false := by
  unfold blitClip geomOf
  dsimp only
  by_cases hsource : Meets 0 x.srcLen x.src (x.src + x.len) ∧ Meets 0 y.srcLen y.src (y.src + y.len)
  · have hdest : (blockClip ⟨0, 0, x.winLen + 1, y.winLen + 1⟩ ⟨x.lo, y.lo, x.hi, y.hi⟩).1 = false :=
      blockClip_of_not_meets fun hmeets =>
        h ⟨⟨hsource.1.1, hsource.1.2, hmeets.1⟩, hsource.2.1, hsource.2.2, hmeets.2⟩
    unfold Axis.hi Axis.lo at hdest
    rw [blockClip_source hsource.1 hsource.2]
    rw [if_neg (by simp), hdest]
    rfl
  · have hclip : (blockClip ⟨0, 0, x.srcLen, y.srcLen⟩ ⟨x.src, y.src, x.src + x.len, y.src + y.len⟩).1 = false :=
      blockClip_of_not_meets hsource
    rw [hclip]
    rfl

/-! ## Inside both -/

structure BlitterGeom.AtOrigin (b : BlitterGeom) : Prop where
  dc : b.dc.left = 0 ∧ b.dc.top = 0 ∧ 0 ≤ b.dc.right.toInt ∧ 0 ≤ b.dc.bottom.toInt
  sc : b.sc.left = 0 ∧ b.sc.top = 0 ∧ 0 ≤ b.sc.right.toInt ∧ 0 ≤ b.sc.bottom.toInt

variable (b : BlitterGeom)

def BlitterGeom.xAxis : Axis := ⟨b.dstX, b.srcX, b.w, b.sc.right, b.dc.right - 1⟩

def BlitterGeom.yAxis : Axis := ⟨b.dstY, b.srcY, b.h, b.sc.bottom, b.dc.bottom - 1⟩

theorem BlitterGeom.AtOrigin.eq_geomOf {b : BlitterGeom} (h : b.AtOrigin) : geomOf b.xAxis b.yAxis = b := by
  obtain ⟨⟨hdl, hdt, -⟩, hsl, hst, -⟩ := h
  rcases b with ⟨⟨dl, dt, dr, db⟩, ⟨sl, st, sr, sb⟩, dstX, dstY, srcX, srcY, w, h⟩
  simp only at hdl hdt hsl hst
  simp [geomOf, xAxis, yAxis, hdl, hdt, hsl, hst]

/-- The stretch of `n` from `p` on is part of the first `len`. -/
def InRange (p n len : BitVec 32) : Prop := 0 ≤ p.toInt ∧ p.toInt + n.toInt ≤ len.toInt

structure ClippedTo (b g : BlitterGeom) : Prop where
  destX : InRange g.dstX g.w b.dc.right
  destY : InRange g.dstY g.h b.dc.bottom
  sourceX : InRange g.srcX g.w b.sc.right
  sourceY : InRange g.srcY g.h b.sc.bottom
  diffX : g.dstX - g.srcX = b.dstX - b.srcX
  diffY : g.dstY - g.srcY = b.dstY - b.srcY

def ClipsInside : Prop :=
  ∀ g, blitClip b = (true, g) → 0 < g.w.toInt → 0 < g.h.toInt → ClippedTo b g

/-- A negative length that goes below all numbers from the place in the window. -/
def Axis.Backward (a : Axis) : Prop :=
  a.len.toInt < 0 ∧ 0 ≤ a.src.toInt + a.len.toInt ∧ a.dst.toInt + a.len.toInt < -2 ^ 31

theorem toInt_add_wrap (x y : BitVec 32) : ∃ k : Int, (x + y).toInt = x.toInt + y.toInt + 2 ^ 32 * k := by
  refine ⟨-((x.toInt + y.toInt).bdiv (2 ^ 32)), ?_⟩
  have h := Int.bmod_add_bdiv (x.toInt + y.toInt) (2 ^ 32)
  rw [toInt_add]
  omega

theorem toInt_sub_wrap (x y : BitVec 32) : ∃ k : Int, (x - y).toInt = x.toInt - y.toInt + 2 ^ 32 * k := by
  obtain ⟨k, hk⟩ := toInt_add_wrap (x - y) y
  rw [sub_add_cancel] at hk
  exact ⟨-k, by omega⟩

theorem toInt_range (x : BitVec 32) : -2 ^ 31 ≤ x.toInt ∧ x.toInt < 2 ^ 31 := ⟨x.le_toInt, x.toInt_lt⟩

namespace Axis

variable {a : Axis}

theorem ints (a : Axis) :
    (∃ k : Int, (a.src + a.len).toInt = a.src.toInt + a.len.toInt + 2 ^ 32 * k) ∧
    (∃ k : Int, a.lo.toInt = a.dst.toInt + max a.src.toInt 0 - a.src.toInt + 2 ^ 32 * k) ∧
    (∃ k : Int, a.hi.toInt = a.dst.toInt - a.src.toInt + min (a.src + a.len).toInt a.srcLen.toInt + 2 ^ 32 * k) ∧
    a.first.toInt = max a.lo.toInt 0 ∧ a.last.toInt = min a.hi.toInt (a.winLen + 1).toInt ∧
    ∃ k : Int, (a.src + a.first - a.dst).toInt = a.src.toInt + a.first.toInt - a.dst.toInt + 2 ^ 32 * k := by
  have hzero := zero_toInt
  have hsrcFirst : a.srcFirst.toInt = max a.src.toInt 0 := by
    unfold srcFirst
    split_ifs <;> omega
  have hsrcLast : a.srcLast.toInt = min (a.src + a.len).toInt a.srcLen.toInt := by
    unfold srcLast
    split_ifs <;> omega
  refine ⟨toInt_add_wrap .., ?_, ?_, ?_, ?_, ?_⟩
  · obtain ⟨k, hk⟩ := toInt_sub_wrap (a.dst + a.srcFirst) a.src
    obtain ⟨l, hl⟩ := toInt_add_wrap a.dst a.srcFirst
    exact ⟨k + l, by rw [lo]; omega⟩
  · have hhi : a.hi = a.dst - a.src + a.srcLast := by
      unfold hi lo
      ring
    obtain ⟨k, hk⟩ := toInt_add_wrap (a.dst - a.src) a.srcLast
    obtain ⟨l, hl⟩ := toInt_sub_wrap a.dst a.src
    exact ⟨k + l, by rw [hhi]; omega⟩
  · unfold first
    split_ifs <;> omega
  · unfold last
    split_ifs <;> omega
  · obtain ⟨k, hk⟩ := toInt_sub_wrap (a.src + a.first) a.dst
    obtain ⟨l, hl⟩ := toInt_add_wrap a.src a.first
    exact ⟨k + l, by omega⟩

theorem toInt_extent (hwin : 0 ≤ (a.winLen + 1).toInt) (h : a.Accepted) :
    (a.last - a.first).toInt = a.last.toInt - a.first.toInt := by
  obtain ⟨hfirst, hlast, -⟩ := bounds hwin h
  obtain ⟨k, hk⟩ := toInt_sub_wrap a.last a.first
  have := toInt_range (a.last - a.first)
  have := toInt_range a.last
  have := toInt_range a.first
  omega

theorem source_inside_iff (hsrc : 0 ≤ a.srcLen.toInt) (hwin : 0 ≤ (a.winLen + 1).toInt) (h : a.Drawn) :
    InRange (a.src + a.first - a.dst) (a.last - a.first) a.srcLen ↔ ¬ a.Backward := by
  unfold InRange Backward
  rw [toInt_extent hwin h.1]
  obtain ⟨⟨hbegin, hend, hlo, hhi⟩, hlt⟩ := h
  obtain ⟨⟨k1, he⟩, ⟨k2, hlo'⟩, ⟨k3, hhi'⟩, hfirst, hlast, k4, hpos⟩ := a.ints
  have := toInt_range a.len
  have := toInt_range a.dst
  have := toInt_range a.srcLen
  have := toInt_range a.lo
  have := toInt_range a.hi
  have := toInt_range (a.src + a.first - a.dst)
  generalize (a.src + a.first - a.dst).toInt = pos at *
  generalize (a.src + a.len).toInt = e at *
  by_cases hforward : max a.src.toInt 0 ≤ min e a.srcLen.toInt
  · -- Where the ends are in order, the sums that passed the tests have not wrapped.
    refine iff_of_true ?_ (by omega)
    have hM := le_max_right a.src.toInt 0
    have hm := min_le_right e a.srcLen.toInt
    generalize max a.src.toInt 0 = M at *
    generalize min e a.srcLen.toInt = m at *
    omega
  · have hback : a.src.toInt = max a.src.toInt 0 ∧ e = min e a.srcLen.toInt ∧ e < a.src.toInt := by omega
    have hk4 : k4 = -1 := by omega
    omega

theorem drawn_iff (hwin : 0 ≤ (a.winLen + 1).toInt) (h : a.Accepted) : a.Drawn ↔ 0 < (a.last - a.first).toInt := by
  rw [toInt_extent hwin h, Int.sub_pos]
  exact ⟨fun hdrawn => hdrawn.2, fun hlt => ⟨h, hlt⟩⟩

end Axis

section

variable {b : BlitterGeom}

theorem BlitterGeom.windows (b : BlitterGeom) : b.xAxis.winLen + 1 = b.dc.right ∧ b.yAxis.winLen + 1 = b.dc.bottom :=
  ⟨BitVec.sub_add_cancel .., BitVec.sub_add_cancel ..⟩

/-- **What is clipped lies inside the window and the picture**, unless a length goes backwards. -/
theorem blit_clip_inside_iff (h : b.AtOrigin) :
    ClipsInside b ↔ ¬ (b.xAxis.Drawn ∧ b.yAxis.Drawn ∧ (b.xAxis.Backward ∨ b.yAxis.Backward)) := by
  have hx : 0 ≤ (b.xAxis.winLen + 1).toInt := by rw [b.windows.1]; exact h.dc.2.2.1
  have hy : 0 ≤ (b.yAxis.winLen + 1).toInt := by rw [b.windows.2]; exact h.dc.2.2.2
  by_cases haccepted : b.xAxis.Accepted ∧ b.yAxis.Accepted
  · obtain ⟨hxa, hya⟩ := haccepted
    have hclip := blitClip_accepted hxa hya
    rw [h.eq_geomOf] at hclip
    have hxin := Axis.source_inside_iff h.sc.2.2.1 hx
    have hyin := Axis.source_inside_iff h.sc.2.2.2 hy
    have hxb := Axis.bounds hx hxa
    have hyb := Axis.bounds hy hya
    constructor
    · rintro hinside ⟨hxd, hyd, hback⟩
      have hto := hinside _ hclip ((Axis.drawn_iff hx hxa).mp hxd) ((Axis.drawn_iff hy hya).mp hyd)
      rcases hback with hback | hback
      · exact (hxin hxd).mp hto.sourceX hback
      · exact (hyin hyd).mp hto.sourceY hback
    intro hnot g hg hw hh
    rw [hclip] at hg
    cases hg
    have hxd := (Axis.drawn_iff hx hxa).mpr hw
    have hyd := (Axis.drawn_iff hy hya).mpr hh
    rw [b.windows.1] at hxb
    rw [b.windows.2] at hyb
    refine ⟨⟨hxb.1, ?_⟩, ⟨hyb.1, ?_⟩, (hxin hxd).mpr fun hb => hnot ⟨hxd, hyd, .inl hb⟩,
      (hyin hyd).mpr fun hb => hnot ⟨hxd, hyd, .inr hb⟩, ?_, ?_⟩
    · dsimp only
      rw [Axis.toInt_extent hx hxa]
      omega
    · dsimp only
      rw [Axis.toInt_extent hy hya]
      omega
    · show b.xAxis.first - (b.srcX + b.xAxis.first - b.dstX) = _
      ring
    · show b.yAxis.first - (b.srcY + b.yAxis.first - b.dstY) = _
      ring
  · have hreject := blitClip_rejected haccepted
    rw [h.eq_geomOf] at hreject
    refine iff_of_true (fun g hg => ?_) fun hdrawn => haccepted ⟨hdrawn.1.1, hdrawn.2.1.1⟩
    rw [hg] at hreject
    cases hreject

def picture (dst src len : BitVec 32) : BlitterGeom where
  dc := ⟨0, 0, 100, 100⟩
  sc := ⟨0, 0, 200, 200⟩
  dstX := dst
  dstY := 0
  srcX := src
  srcY := 0
  w := len
  h := 1

theorem picture_atOrigin (dst src len : BitVec 32) : (picture dst src len).AtOrigin :=
  have hside : ∀ n : BitVec 32, n = 100 ∨ n = 200 → 0 ≤ n.toInt := by rintro n (rfl | rfl) <;> decide
  ⟨⟨rfl, rfl, hside _ (.inl rfl), hside _ (.inl rfl)⟩, rfl, rfl, hside _ (.inr rfl), hside _ (.inr rfl)⟩

theorem blit_clip_inside_left : (picture (-5) 0 10).AtOrigin ∧ ClipsInside (picture (-5) 0 10) :=
  ⟨picture_atOrigin .., (blit_clip_inside_iff (picture_atOrigin ..)).mpr fun h =>
    h.2.2.elim (fun hx => absurd hx.1 (by decide)) fun hy => absurd hy.1 (by decide)⟩

/-- The length -100 from column 100 of the picture, at the least place of all. -/
theorem blit_clip_outside : ¬ ∀ b : BlitterGeom, b.AtOrigin → ClipsInside b := by
  intro h
  have hto := h _ (picture_atOrigin 0x80000000 100 (-100)) _ (Prod.ext (by decide +kernel) rfl) (by decide +kernel)
    (by decide +kernel)
  have hlo := hto.sourceX.1
  revert hlo
  decide +kernel

end

/-! ## Exactly what meets both -/

def BlitterGeom.pairs : Set ((Int × Int) × (Int × Int)) :=
  { p | ∃ i j : Int, (0 ≤ i ∧ i < b.w.toInt) ∧ (0 ≤ j ∧ j < b.h.toInt) ∧
    p = ((b.dstX.toInt + i, b.dstY.toInt + j), (b.srcX.toInt + i, b.srcY.toInt + j)) }

def drawnPairs : Set ((Int × Int) × (Int × Int)) :=
  { p | (blitClip b).1 = true ∧ p ∈ (blitClip b).2.pairs }

def Rect.Has (r : Rect) (p : Int × Int) : Prop :=
  (r.left.toInt ≤ p.1 ∧ p.1 < r.right.toInt) ∧ (r.top.toInt ≤ p.2 ∧ p.2 < r.bottom.toInt)

namespace Axis

variable {a : Axis}

structure Small (a : Axis) : Prop where
  dst : |a.dst.toInt| < 2 ^ 28
  src : |a.src.toInt| < 2 ^ 28
  len : 0 ≤ a.len.toInt ∧ a.len.toInt < 2 ^ 28
  srcLen : 0 ≤ a.srcLen.toInt ∧ a.srcLen.toInt < 2 ^ 28
  winLen : 0 ≤ (a.winLen + 1).toInt ∧ (a.winLen + 1).toInt < 2 ^ 28

def Visible (a : Axis) (i : Int) : Prop :=
  (0 ≤ i ∧ i < a.len.toInt) ∧ (0 ≤ a.dst.toInt + i ∧ a.dst.toInt + i < (a.winLen + 1).toInt) ∧
    (0 ≤ a.src.toInt + i ∧ a.src.toInt + i < a.srcLen.toInt)

theorem Small.exact (h : a.Small) :
    (a.Accepted → (a.src + a.first - a.dst).toInt = a.src.toInt + a.first.toInt - a.dst.toInt ∧
      ∀ i, a.Visible i ↔ a.first.toInt ≤ a.dst.toInt + i ∧ a.dst.toInt + i < a.last.toInt) ∧
    (¬ a.Accepted → ∀ i, ¬ a.Visible i) := by
  obtain ⟨hdst, hsrc, hlen, hsrcLen, hwinLen⟩ := h
  rw [abs_lt] at hdst hsrc
  obtain ⟨⟨k1, he⟩, ⟨k2, hlo⟩, ⟨k3, hhi⟩, hfirst, hlast, k4, hpos⟩ := a.ints
  have := toInt_range (a.src + a.len)
  have := toInt_range a.lo
  have := toInt_range a.hi
  have := toInt_range (a.src + a.first - a.dst)
  unfold Accepted Visible
  generalize (a.src + a.first - a.dst).toInt = pos at *
  generalize (a.src + a.len).toInt = e at *
  refine ⟨fun haccepted => ?_, fun hnot i hi => hnot ?_⟩
  · have hk3 : k3 = 0 := by omega
    exact ⟨by omega, fun i => by omega⟩
  · have hk3 : k3 = 0 := by omega
    omega

end Axis

/-- **Clipping is exact**: what is drawn is in the window and in the picture. -/
theorem blit_clip_exact {b : BlitterGeom} (h : b.AtOrigin) (hx : b.xAxis.Small) (hy : b.yAxis.Small) :
    drawnPairs b = { p | p ∈ b.pairs ∧ b.dc.Has p.1 ∧ b.sc.Has p.2 } := by
  obtain ⟨hxacc, hxno⟩ := hx.exact
  obtain ⟨hyacc, hyno⟩ := hy.exact
  -- A pair of the request is in both rectangles exactly if it is visible along both axes.
  have hhas : ∀ i j, (0 ≤ i ∧ i < b.w.toInt) ∧ (0 ≤ j ∧ j < b.h.toInt) ∧
      b.dc.Has (b.dstX.toInt + i, b.dstY.toInt + j) ∧ b.sc.Has (b.srcX.toInt + i, b.srcY.toInt + j) ↔
        b.xAxis.Visible i ∧ b.yAxis.Visible j := by
    intro i j
    unfold Rect.Has Axis.Visible
    rw [b.windows.1, b.windows.2, h.dc.1, h.dc.2.1, h.sc.1, h.sc.2.1, zero_toInt]
    constructor
    · rintro ⟨hi, hj, ⟨hdx, hdy⟩, hsx, hsy⟩
      exact ⟨⟨hi, hdx, hsx⟩, hj, hdy, hsy⟩
    · rintro ⟨⟨hi, hdx, hsx⟩, hj, hdy, hsy⟩
      exact ⟨hi, hj, ⟨hdx, hdy⟩, hsx, hsy⟩
  ext p
  unfold drawnPairs BlitterGeom.pairs
  by_cases haccepted : b.xAxis.Accepted ∧ b.yAxis.Accepted
  · have hclip := blitClip_accepted haccepted.1 haccepted.2
    rw [h.eq_geomOf] at hclip
    obtain ⟨hxpos, hxvis⟩ := hxacc haccepted.1
    obtain ⟨hypos, hyvis⟩ := hyacc haccepted.2
    change _ = b.srcX.toInt + b.xAxis.first.toInt - b.dstX.toInt at hxpos
    change _ = b.srcY.toInt + b.yAxis.first.toInt - b.dstY.toInt at hypos
    change ∀ i, _ ↔ b.xAxis.first.toInt ≤ b.dstX.toInt + i ∧ b.dstX.toInt + i < b.xAxis.last.toInt at hxvis
    change ∀ j, _ ↔ b.yAxis.first.toInt ≤ b.dstY.toInt + j ∧ b.dstY.toInt + j < b.yAxis.last.toInt at hyvis
    simp only [hclip, Set.mem_ofPred_eq, true_and]
    rw [Axis.toInt_extent hx.winLen.1 haccepted.1, Axis.toInt_extent hy.winLen.1 haccepted.2, hxpos, hypos]
    constructor
    · rintro ⟨i, j, hi, hj, rfl⟩
      have hvx := (hxvis (b.xAxis.first.toInt - b.dstX.toInt + i)).mpr (by omega)
      have hvy := (hyvis (b.yAxis.first.toInt - b.dstY.toInt + j)).mpr (by omega)
      obtain ⟨hxi, hyj, hdc, hsc⟩ := (hhas _ _).mpr ⟨hvx, hvy⟩
      rw [show b.dstX.toInt + (b.xAxis.first.toInt - b.dstX.toInt + i) = b.xAxis.first.toInt + i by omega,
        show b.dstY.toInt + (b.yAxis.first.toInt - b.dstY.toInt + j) = b.yAxis.first.toInt + j by omega] at hdc
      rw [← Int.add_assoc, ← Int.add_assoc, ← Int.add_sub_assoc, ← Int.add_sub_assoc] at hsc
      refine ⟨⟨_, _, hxi, hyj, ?_⟩, hdc, hsc⟩
      simp only [Prod.mk.injEq]
      omega
    · rintro ⟨⟨i, j, hi, hj, rfl⟩, hdc, hsc⟩
      obtain ⟨hvx, hvy⟩ := (hhas i j).mp ⟨hi, hj, hdc, hsc⟩
      have hxi := (hxvis i).mp hvx
      have hyj := (hyvis j).mp hvy
      refine ⟨b.dstX.toInt + i - b.xAxis.first.toInt, b.dstY.toInt + j - b.yAxis.first.toInt, by omega, by omega, ?_⟩
      simp only [Prod.mk.injEq]
      omega
  · have hreject := blitClip_rejected haccepted
    rw [h.eq_geomOf] at hreject
    simp only [hreject, Set.mem_ofPred_eq, Bool.false_eq_true, false_and, false_iff]
    rintro ⟨⟨i, j, hi, hj, rfl⟩, hdc, hsc⟩
    obtain ⟨hvx, hvy⟩ := (hhas i j).mp ⟨hi, hj, hdc, hsc⟩
    exact haccepted ⟨not_not.mp fun hno => hxno hno i hvx, not_not.mp fun hno => hyno hno j hvy⟩

theorem blit_clip_exact_left :
    drawnPairs (picture (-5) 0 10) = { p | p ∈ (picture (-5) 0 10).pairs ∧ (picture (-5) 0 10).dc.Has p.1 ∧
      (picture (-5) 0 10).sc.Has p.2 } :=
  blit_clip_exact (picture_atOrigin ..) ⟨by decide, by decide, by decide, by decide, by decide⟩
    ⟨by decide, by decide, by decide, by decide, by decide⟩

end Kolibri.Blit
