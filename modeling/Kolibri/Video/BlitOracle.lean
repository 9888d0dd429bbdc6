import Kolibri.Video.Blit

/-! # The nested loops that the tests compare `blit_32` with (`geometry.rs`, `blit_32.rs`) -/

namespace Kolibri.Blit

open Memory

def fasmOracleBlockClip (clip rect : Rect) : Bool × Rect :=
  if clip.right.toInt ≤ rect.left.toInt then (false, rect)
  else if rect.right.toInt < clip.left.toInt then (false, rect)
  else
    let cut := if rect.left.toInt < clip.left.toInt then { rect with left := clip.left } else rect
    let cut := if clip.right.toInt < rect.right.toInt then { cut with right := clip.right } else cut
    if clip.bottom.toInt ≤ cut.top.toInt then (false, cut)
    else if cut.bottom.toInt < clip.top.toInt then (false, cut)
    else
      let out := if cut.top.toInt < clip.top.toInt then { cut with top := clip.top } else cut
      let out := if clip.bottom.toInt < cut.bottom.toInt then { out with bottom := clip.bottom } else out
      (true, out)

def fasmOracleBlitClip (b : BlitterGeom) : Bool × BlitterGeom :=
  let (draw, src) := fasmOracleBlockClip b.sc ⟨b.srcX, b.srcY, b.srcX + b.w, b.srcY + b.h⟩
  if ¬ draw then (false, b)
  else
    let dx0 := b.dstX + src.left - b.srcX
    let dy0 := b.dstY + src.top - b.srcY
    let dx1 := dx0 - src.left + src.right
    let dy1 := dy0 - src.top + src.bottom
    let (draw, dst) := fasmOracleBlockClip b.dc ⟨dx0, dy0, dx1, dy1⟩
    if ¬ draw then (false, b)
    else
      (true, { b with
        w := dst.right - dst.left
        h := dst.bottom - dst.top
        srcX := b.srcX + dst.left - b.dstX
        srcY := b.srcY + dst.top - b.dstY
        dstX := dst.left
        dstY := dst.top })

def independentPackRgb565 (color : BitVec 32) : BitVec 16 :=
  let r5 := ((color >>> 16).setWidth 16 &&& 0xF8) >>> 3
  let g6 := ((color >>> 8).setWidth 16 &&& 0xFC) >>> 2
  let b5 := (color.setWidth 16 &&& 0xF8) >>> 3
  r5 <<< 11 ||| g6 <<< 5 ||| b5

def oracleBytesPp (ctx : Blit32Ctx) : BitVec 32 :=
  if ctx.bpp = 32 then 4 else if ctx.bpp = 24 then 3 else 2

def oracleStore (ctx : Blit32Ctx) (lfb : Mem) (dst color : BitVec 32) : Mem :=
  if ctx.bpp = 32 then store32 lfb dst color
  else if ctx.bpp = 24 then
    storeBytes lfb dst [color.setWidth 8, (color >>> 8).setWidth 8, (color >>> 16).setWidth 8]
  else store16 lfb dst (independentPackRgb565 color)

def oraclePixel (ctx : Blit32Ctx) (bitmap : Mem) (stride ox y : BitVec 32) (g : BlitterGeom) (row : BitVec 32) (lfb : Mem)
    (col : Nat) : Mem :=
  let col := BitVec.ofNat 32 col
  let mapRow := ctx.dwidthLut y + ox
  let lfbRow := ctx.bpsLut y + ox * oracleBytesPp ctx
  if ctx.winMap (mapRow + col) ≠ ctx.slotIdx.setWidth 8 then lfb
  else
    let color := load32 bitmap ((g.srcY + row) * stride + (g.srcX + col) * 4)
    let pos := (ox + col) <<< 16 ||| (y &&& 0xFFFF)
    oracleStore ctx lfb (lfbRow + col * oracleBytesPp ctx) (applyMouse ctx color pos)

def oracleRow (ctx : Blit32Ctx) (bitmap : Mem) (stride ox oy : BitVec 32) (g : BlitterGeom) (lfb : Mem) (row : Nat) : Mem :=
  let row := BitVec.ofNat 32 row
  (List.range g.w.toInt.toNat).foldl (oraclePixel ctx bitmap stride ox (oy + row) g row) lfb

def fasmOracleBlit32 (params : Nat → BitVec 8) (flags : BitVec 32) (ctx : Blit32Ctx) (bitmap lfb : Mem) : Mem :=
  let stride := Bytes.readU32 params 36
  let (draw, g) := fasmOracleBlitClip (requestGeom params ctx)
  if ¬ draw ∨ g.w = 0 ∨ g.h = 0 then lfb
  else
    let relative := flags &&& blitClientRelative ≠ 0
    let ox := g.dstX + ctx.winLeft
    let oy := g.dstY + ctx.winTop
    let ox := if relative then ox + ctx.clientLeft else ox
    let oy := if relative then oy + ctx.clientTop else oy
    (List.range g.h.toInt.toNat).foldl (oracleRow ctx bitmap stride ox oy g) lfb

/-! ## The parts agree -/

theorem fasm_oracle_block_clip_eq (clip rect : Rect) : fasmOracleBlockClip clip rect = blockClip clip rect := by
  obtain ⟨left, top, right, bottom⟩ := rect
  unfold fasmOracleBlockClip blockClip
  grind

theorem fasm_oracle_blit_clip_eq (b : BlitterGeom) : fasmOracleBlitClip b = blitClip b := by
  unfold fasmOracleBlitClip blitClip
  simp [fasm_oracle_block_clip_eq]

/-- The green and the red bits that `add al, ah` brings together do not meet. -/
theorem fasm_pack_rgb565_eq (color : BitVec 32) : fasmPackRgb565 color = independentPackRgb565 color := by
  unfold fasmPackRgb565 independentPackRgb565
  dsimp only
  rw [BitVec.add_eq_or_of_and_eq_zero]
  · ext i hi
    interval_cases i <;> simp
  · ext i hi
    interval_cases i <;> simp

/-- The core of `blit_32` writes the pixels of this context. -/
structure Core.Writes (core : Core) (ctx : Blit32Ctx) : Prop where
  size : core.size = oracleBytesPp ctx
  pack (lfb : Mem) (dst color : BitVec 32) : storeBytes lfb dst (core.pack color) = oracleStore ctx lfb dst color

section Loops

variable {ctx : Blit32Ctx} {core : Core} {bitmap : Mem} {stride ox : BitVec 32} {g : BlitterGeom}

theorem blitPixel_lfb (hcore : core.Writes ctx) (y row : BitVec 32) (c : Nat) (s : Screen) :
    (blitPixel ctx core bitmap (ox + BitVec.ofNat 32 c) y (ctx.bpsLut y + ox * core.size + BitVec.ofNat 32 c * core.size)
        (ctx.dwidthLut y + ox + BitVec.ofNat 32 c) ((g.srcY + row) * stride + (g.srcX + BitVec.ofNat 32 c) * 4) s).lfb =
      oraclePixel ctx bitmap stride ox y g row s.lfb c := by
  unfold blitPixel oraclePixel
  simp only [ne_eq, ite_not]
  split_ifs with htop
  · rw [hcore.pack, hcore.size]
  · rfl

theorem blitCols_lfb (hcore : core.Writes ctx) (y row : BitVec 32) (n c : Nat) (s : Screen) :
    (blitCols ctx core bitmap y n (ox + BitVec.ofNat 32 c) (ctx.bpsLut y + ox * core.size + BitVec.ofNat 32 c * core.size)
        (ctx.dwidthLut y + ox + BitVec.ofNat 32 c) ((g.srcY + row) * stride + (g.srcX + BitVec.ofNat 32 c) * 4) s).lfb =
      (List.range' c n).foldl (oraclePixel ctx bitmap stride ox y g row) s.lfb := by
  induction n generalizing c s with
  | zero => rfl
  | succ n ih =>
    have hc : BitVec.ofNat 32 (c + 1) = BitVec.ofNat 32 c + 1 := BitVec.ofNat_add ..
    have hx : ox + BitVec.ofNat 32 c + 1 = ox + BitVec.ofNat 32 (c + 1) := by rw [hc]; ring
    have hlfb : ctx.bpsLut y + ox * core.size + BitVec.ofNat 32 c * core.size + core.size =
        ctx.bpsLut y + ox * core.size + BitVec.ofNat 32 (c + 1) * core.size := by rw [hc]; ring
    have hmap : ctx.dwidthLut y + ox + BitVec.ofNat 32 c + 1 = ctx.dwidthLut y + ox + BitVec.ofNat 32 (c + 1) := by
      rw [hc]; ring
    have hsrc : (g.srcY + row) * stride + (g.srcX + BitVec.ofNat 32 c) * 4 + 4 =
        (g.srcY + row) * stride + (g.srcX + BitVec.ofNat 32 (c + 1)) * 4 := by rw [hc]; ring
    rw [blitCols, hx, hlfb, hmap, hsrc, ih, blitPixel_lfb hcore, List.range'_succ, List.foldl_cons]

theorem blitRows_lfb (hcore : core.Writes ctx) (oy : BitVec 32) (n r : Nat) (s : Screen) :
    (blitRows ctx core bitmap stride ox g.w.toInt.toNat n (oy + BitVec.ofNat 32 r)
        ((g.srcY + BitVec.ofNat 32 r) * stride + g.srcX * 4) s).lfb =
      (List.range' r n).foldl (oracleRow ctx bitmap stride ox oy g) s.lfb := by
  induction n generalizing r s with
  | zero => rfl
  | succ n ih =>
    have hr : BitVec.ofNat 32 (r + 1) = BitVec.ofNat 32 r + 1 := BitVec.ofNat_add ..
    have hcols := @blitCols_lfb ctx core bitmap stride ox g hcore (oy + BitVec.ofNat 32 r) (BitVec.ofNat 32 r)
      g.w.toInt.toNat 0 s
    simp only [show BitVec.ofNat 32 0 = 0 from rfl, zero_mul, add_zero, ← List.range_eq_range'] at hcols
    have hsrc : (g.srcY + BitVec.ofNat 32 r) * stride + g.srcX * 4 + stride =
        (g.srcY + BitVec.ofNat 32 (r + 1)) * stride + g.srcX * 4 := by rw [hr]; ring
    rw [blitRows, BitVec.add_assoc, ← hr, hsrc, ih, hcols, List.range'_succ, List.foldl_cons]
    rfl

theorem blitCore_lfb (hcore : core.Writes ctx) (oy : BitVec 32) (s : Screen) :
    (blitCore core ctx bitmap (g.srcY * stride + g.srcX * 4) stride g.w g.h ox oy s).lfb =
      (List.range g.h.toInt.toNat).foldl (oracleRow ctx bitmap stride ox oy g) s.lfb := by
  have hrows := @blitRows_lfb ctx core bitmap stride ox g hcore oy g.h.toInt.toNat 0 s
  rwa [BitVec.add_zero, BitVec.add_zero, ← List.range_eq_range'] at hrows

theorem blitCore_bpp_lfb (oy : BitVec 32) (s : Screen) :
    (if ctx.bpp = 32 then blitCore32 ctx bitmap (g.srcY * stride + g.srcX * 4) stride g.w g.h ox oy s
      else if ctx.bpp = 24 then blitCore24 ctx bitmap (g.srcY * stride + g.srcX * 4) stride g.w g.h ox oy s
      else blitCore16 ctx bitmap (g.srcY * stride + g.srcX * 4) stride g.w g.h ox oy s).lfb =
      (List.range g.h.toInt.toNat).foldl (oracleRow ctx bitmap stride ox oy g) s.lfb := by
  split_ifs with h32 h24
  · refine blitCore_lfb ⟨by simp [oracleBytesPp, h32], fun lfb dst color => ?_⟩ oy s
    rw [oracleStore, if_pos h32, store32]
  · refine blitCore_lfb ⟨by simp [oracleBytesPp, h24], fun lfb dst color => ?_⟩ oy s
    rw [oracleStore, if_neg h32, if_pos h24]
    rfl
  · refine blitCore_lfb ⟨by rw [oracleBytesPp, if_neg h32, if_neg h24], fun lfb dst color => ?_⟩ oy s
    rw [oracleStore, if_neg h32, if_neg h24, store16, ← fasm_pack_rgb565_eq]

end Loops

/-- `blit_32` leaves the frame buffer as the nested loops leave it. -/
theorem blit32_eq_oracle (params : Nat → BitVec 8) (flags : BitVec 32) (ctx : Blit32Ctx) (bitmap : Mem) (s : Screen) :
    (blit32 params flags ctx bitmap s).lfb = fasmOracleBlit32 params flags ctx bitmap s.lfb ∧
      ∀ color, fasmPackRgb565 color = independentPackRgb565 color := by
  refine ⟨?_, fasm_pack_rgb565_eq⟩
  unfold blit32 fasmOracleBlit32
  rw [fasm_oracle_blit_clip_eq]
  dsimp only
  rw [← ite_or, apply_ite Screen.lfb]
  refine if_congr Iff.rfl rfl ?_
  exact blitCore_bpp_lfb _ s

end Kolibri.Blit
