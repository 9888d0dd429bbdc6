import Kolibri.Lib.Stretch
import Kolibri.Lib.Bytes
import Kolibri.Lib.Memory

/-! # Copying a picture to the screen (`geometry.rs`, `blit_32.rs`)

The rows that clipping leaves go to the frame buffer where the window map says that the window is on top.
-/

namespace Kolibri.Blit

open Memory

/-! ## Clipping -/

structure Rect where
  left : BitVec 32
  top : BitVec 32
  right : BitVec 32
  bottom : BitVec 32

/-- A rectangle that fails in `y` is already cut in `x`. -/
def blockClip (clip rect : Rect) : Bool × Rect :=
  if clip.right.toInt ≤ rect.left.toInt ∨ rect.right.toInt < clip.left.toInt then (false, rect)
  else
    let rect := { rect with
      left := if rect.left.toInt < clip.left.toInt then clip.left else rect.left
      right := if clip.right.toInt < rect.right.toInt then clip.right else rect.right }
    if clip.bottom.toInt ≤ rect.top.toInt ∨ rect.bottom.toInt < clip.top.toInt then (false, rect)
    else
      (true, { rect with
        top := if rect.top.toInt < clip.top.toInt then clip.top else rect.top
        bottom := if clip.bottom.toInt < rect.bottom.toInt then clip.bottom else rect.bottom })

structure BlitterGeom where
  dc : Rect
  sc : Rect
  dstX : BitVec 32
  dstY : BitVec 32
  srcX : BitVec 32
  srcY : BitVec 32
  w : BitVec 32
  h : BitVec 32

def blitClip (b : BlitterGeom) : Bool × BlitterGeom :=
  let (draw, src) := blockClip b.sc ⟨b.srcX, b.srcY, b.srcX + b.w, b.srcY + b.h⟩
  if ¬ draw then (false, b)
  else
    let dx0 := b.dstX + src.left - b.srcX
    let dy0 := b.dstY + src.top - b.srcY
    let dx1 := dx0 - src.left + src.right
    let dy1 := dy0 - src.top + src.bottom
    let (draw, dst) := blockClip b.dc ⟨dx0, dy0, dx1, dy1⟩
    if ¬ draw then (false, b)
    else
      (true, { b with
        w := dst.right - dst.left
        h := dst.bottom - dst.top
        srcX := b.srcX + dst.left - b.dstX
        srcY := b.srcY + dst.top - b.dstY
        dstX := dst.left
        dstY := dst.top })

/-! ## The rows -/

structure Blit32Ctx where
  winLeft : BitVec 32
  winTop : BitVec 32
  winWidth : BitVec 32
  winHeight : BitVec 32
  clientLeft : BitVec 32
  clientTop : BitVec 32
  slotIdx : BitVec 32
  bpp : BitVec 32
  winMap : BitVec 32 → BitVec 8
  bpsLut : BitVec 32 → BitVec 32
  dwidthLut : BitVec 32 → BitVec 32
  selectCursor : BitVec 32
  softwareCursor : BitVec 32
  checkMouse : BitVec 32 → BitVec 32 → BitVec 32

/-- An access for the screen position `x`, `y`, with its offset in the map or the frame buffer. -/
inductive Access where
  | readMap (x y off : BitVec 32)
  | writePixel (x y off : BitVec 32)

def Access.x : Access → BitVec 32
  | readMap x _ _ => x
  | writePixel x _ _ => x

def Access.y : Access → BitVec 32
  | readMap _ y _ => y
  | writePixel _ y _ => y

structure Screen where
  lfb : Mem
  log : List Access

/-- The bytes of a pixel and how a colour is stored in them. -/
structure Core where
  size : BitVec 32
  pack : BitVec 32 → List (BitVec 8)

def applyMouse (ctx : Blit32Ctx) (color pos : BitVec 32) : BitVec 32 :=
  if ctx.selectCursor = ctx.softwareCursor then ctx.checkMouse color pos else color

def blitPixel (ctx : Blit32Ctx) (core : Core) (bitmap : Mem) (x y lfbOff mapOff src : BitVec 32) (s : Screen) :
    Screen :=
  let s := { s with log := .readMap x y mapOff :: s.log }
  if ctx.winMap mapOff = ctx.slotIdx.setWidth 8 then
    let color := load32 bitmap src
    let pos := x <<< 16 ||| (y &&& 0xFFFF)
    let color := applyMouse ctx color pos
    { lfb := storeBytes s.lfb lfbOff (core.pack color), log := .writePixel x y lfbOff :: s.log }
  else s

def blitCols (ctx : Blit32Ctx) (core : Core) (bitmap : Mem) (y : BitVec 32) :
    Nat → BitVec 32 → BitVec 32 → BitVec 32 → BitVec 32 → Screen → Screen
  | 0, _, _, _, _, s => s
  | n + 1, x, lfbOff, mapOff, src, s =>
    blitCols ctx core bitmap y n (x + 1) (lfbOff + core.size) (mapOff + 1) (src + 4)
      (blitPixel ctx core bitmap x y lfbOff mapOff src s)

def blitRows (ctx : Blit32Ctx) (core : Core) (bitmap : Mem) (stride outX : BitVec 32) (w : Nat) :
    Nat → BitVec 32 → BitVec 32 → Screen → Screen
  | 0, _, _, s => s
  | n + 1, y, src, s =>
    let lfbOff := ctx.bpsLut y + outX * core.size
    let mapOff := ctx.dwidthLut y + outX
    blitRows ctx core bitmap stride outX w n (y + 1) (src + stride) (blitCols ctx core bitmap y w outX lfbOff mapOff src s)

/-- `while row < h` and `while col < w` from 0 on, with signed counters. -/
def blitCore (core : Core) (ctx : Blit32Ctx) (bitmap : Mem) (srcBase stride w h outX outY : BitVec 32) (s : Screen) :
    Screen :=
  blitRows ctx core bitmap stride outX w.toInt.toNat h.toInt.toNat outY srcBase s

def blitCore32 : Blit32Ctx → Mem → BitVec 32 → BitVec 32 → BitVec 32 → BitVec 32 → BitVec 32 → BitVec 32 → Screen →
    Screen :=
  blitCore ⟨4, fun c => [c.extractLsb' 0 8, c.extractLsb' 8 8, c.extractLsb' 16 8, c.extractLsb' 24 8]⟩

def blitCore24 : Blit32Ctx → Mem → BitVec 32 → BitVec 32 → BitVec 32 → BitVec 32 → BitVec 32 → BitVec 32 → Screen →
    Screen :=
  blitCore ⟨3, fun c => [c.extractLsb' 0 8, c.extractLsb' 8 8, c.extractLsb' 16 8]⟩

/-- `shr ah, 2`, `shr ax, 3`, `ror eax, 8`, `add al, ah`, `rol eax, 8`. -/
def fasmPackRgb565 (color : BitVec 32) : BitVec 16 :=
  let eax := color &&& 0x00F8FCF8
  let ah := ((eax >>> 8) &&& 0xFF) >>> 2
  let al := eax &&& 0xFF
  let ax := (ah <<< 8 ||| al) >>> 3
  let eax := (eax &&& 0xFFFF0000) ||| ax
  let eax := eax.rotateRight 8
  let sum := (eax.setWidth 8 : BitVec 8) + (eax >>> 8).setWidth 8
  let eax := (eax &&& 0xFFFFFF00) ||| sum.setWidth 32
  (eax.rotateLeft 8).setWidth 16

def blitCore16 : Blit32Ctx → Mem → BitVec 32 → BitVec 32 → BitVec 32 → BitVec 32 → BitVec 32 → BitVec 32 → Screen →
    Screen :=
  blitCore ⟨2, fun c => [(fasmPackRgb565 c).extractLsb' 0 8, (fasmPackRgb565 c).extractLsb' 8 8]⟩

def blitClientRelative : BitVec 32 := 0x20000000

def requestGeom (params : Nat → BitVec 8) (ctx : Blit32Ctx) : BlitterGeom where
  dc := ⟨0, 0, ctx.winWidth + 1, ctx.winHeight + 1⟩
  sc := ⟨0, 0, Bytes.readU32 params 24, Bytes.readU32 params 28⟩
  dstX := Bytes.readU32 params 0
  dstY := Bytes.readU32 params 4
  srcX := Bytes.readU32 params 16
  srcY := Bytes.readU32 params 20
  w := Bytes.readU32 params 8
  h := Bytes.readU32 params 12

def blit32 (params : Nat → BitVec 8) (flags : BitVec 32) (ctx : Blit32Ctx) (bitmap : Mem) (s : Screen) : Screen :=
  let stride := Bytes.readU32 params 36
  let (draw, g) := blitClip (requestGeom params ctx)
  if ¬ draw then s
  else if g.w = 0 ∨ g.h = 0 then s
  else
    let relative := flags &&& blitClientRelative ≠ 0
    let outX := g.dstX + ctx.winLeft
    let outY := g.dstY + ctx.winTop
    let outX := if relative then outX + ctx.clientLeft else outX
    let outY := if relative then outY + ctx.clientTop else outY
    let srcBase := g.srcY * stride + g.srcX * 4
    if ctx.bpp = 32 then blitCore32 ctx bitmap srcBase stride g.w g.h outX outY s
    else if ctx.bpp = 24 then blitCore24 ctx bitmap srcBase stride g.w g.h outX outY s
    else blitCore16 ctx bitmap srcBase stride g.w g.h outX outY s

/-! ## The accesses -/

section Log

variable {ctx : Blit32Ctx} {core : Core} {bitmap : Mem} {P : Access → Prop}

theorem blitPixel_log (x y lfbOff mapOff src : BitVec 32) (s : Screen) :
    (∀ a ∈ (blitPixel ctx core bitmap x y lfbOff mapOff src s).log, P a) ↔
      (∀ a ∈ s.log, P a) ∧ P (.readMap x y mapOff) ∧
        (ctx.winMap mapOff = ctx.slotIdx.setWidth 8 → P (.writePixel x y lfbOff)) := by
  unfold blitPixel
  split_ifs with htop
  · simp only [List.forall_mem_cons, htop, true_implies]
    tauto
  · simp only [List.forall_mem_cons, htop, false_implies, and_true]
    tauto

def AtPosition (ctx : Blit32Ctx) (core : Core) (P : Access → Prop) (x y : BitVec 32) : Prop :=
  P (.readMap x y (ctx.dwidthLut y + x)) ∧
    (ctx.winMap (ctx.dwidthLut y + x) = ctx.slotIdx.setWidth 8 → P (.writePixel x y (ctx.bpsLut y + x * core.size)))

theorem blitCols_log (y : BitVec 32) (n : Nat) (x src : BitVec 32) (s : Screen) :
    (∀ a ∈ (blitCols ctx core bitmap y n x (ctx.bpsLut y + x * core.size) (ctx.dwidthLut y + x) src s).log, P a) ↔
      (∀ a ∈ s.log, P a) ∧ ∀ i < n, AtPosition ctx core P (x + BitVec.ofNat 32 i) y := by
  induction n generalizing x src s with
  | zero => simp [blitCols]
  | succ n ih =>
    have hlfb : ctx.bpsLut y + x * core.size + core.size = ctx.bpsLut y + (x + 1) * core.size := by ring
    have hmap : ctx.dwidthLut y + x + 1 = ctx.dwidthLut y + (x + 1) := by ring
    rw [blitCols, hlfb, hmap, ih, blitPixel_log, and_assoc, Nat.forall_lt_succ_left]
    refine and_congr_right fun _ => and_congr ?_ ?_
    · rw [BitVec.add_zero]
      rfl
    · simp only [Stretch.add_one_add_ofNat]

theorem blitRows_log (stride outX : BitVec 32) (w n : Nat) (y src : BitVec 32) (s : Screen) :
    (∀ a ∈ (blitRows ctx core bitmap stride outX w n y src s).log, P a) ↔ (∀ a ∈ s.log, P a) ∧
        ∀ j < n, ∀ i < w, AtPosition ctx core P (outX + BitVec.ofNat 32 i) (y + BitVec.ofNat 32 j) := by
  induction n generalizing y src s with
  | zero => simp [blitRows]
  | succ n ih =>
    rw [blitRows, ih, blitCols_log, and_assoc, Nat.forall_lt_succ_left]
    refine and_congr_right fun _ => and_congr ?_ ?_
    · rw [BitVec.add_zero]
    · simp only [Stretch.add_one_add_ofNat]

end Log

end Kolibri.Blit
