import Kolibri.Video.BlitClip

/-! # Where a picture goes in its window -/

namespace Kolibri.Blit

open BitVec

def xAxis (params : Nat → BitVec 8) (ctx : Blit32Ctx) : Axis where
  dst := Bytes.readU32 params 0
  src := Bytes.readU32 params 16
  len := Bytes.readU32 params 8
  srcLen := Bytes.readU32 params 24
  winLen := ctx.winWidth

def yAxis (params : Nat → BitVec 8) (ctx : Blit32Ctx) : Axis where
  dst := Bytes.readU32 params 4
  src := Bytes.readU32 params 20
  len := Bytes.readU32 params 12
  srcLen := Bytes.readU32 params 28
  winLen := ctx.winHeight

variable {params : Nat → BitVec 8} {ctx : Blit32Ctx}

theorem requestGeom_eq : requestGeom params ctx = geomOf (xAxis params ctx) (yAxis params ctx) := rfl

/-! ## Positions on the screen -/

structure OnScreen (ctx : Blit32Ctx) (displayWidth displayHeight : BitVec 32) : Prop where
  left : 0 ≤ ctx.winLeft.toInt
  top : 0 ≤ ctx.winTop.toInt
  right : ctx.winLeft.toInt + ctx.winWidth.toInt < displayWidth.toNat
  bottom : ctx.winTop.toInt + ctx.winHeight.toInt < displayHeight.toNat
  clientLeft : 0 ≤ ctx.clientLeft.toInt ∧ ctx.clientLeft.toInt ≤ ctx.winWidth.toInt
  clientTop : 0 ≤ ctx.clientTop.toInt ∧ ctx.clientTop.toInt ≤ ctx.winHeight.toInt

def InWindow (win len pos : BitVec 32) : Prop := win.toInt ≤ pos.toNat ∧ (pos.toNat : Int) ≤ win.toInt + len.toInt

def Inside (ctx : Blit32Ctx) (a : Access) : Prop :=
  InWindow ctx.winLeft ctx.winWidth a.x ∧ InWindow ctx.winTop ctx.winHeight a.y

theorem atPosition_inside (core : Core) (x y : BitVec 32) :
    AtPosition ctx core (Inside ctx) x y ↔
      InWindow ctx.winLeft ctx.winWidth x ∧ InWindow ctx.winTop ctx.winHeight y :=
  ⟨fun h => h.1, fun h => ⟨h, fun _ => h⟩⟩

def outPos (flags first win client : BitVec 32) : BitVec 32 :=
  if flags &&& blitClientRelative ≠ 0 then first + win + client else first + win

variable {flags : BitVec 32} {bitmap lfb : Memory.Mem}

theorem blit32_log_rejected (h : ¬ ((xAxis params ctx).Accepted ∧ (yAxis params ctx).Accepted)) :
    (blit32 params flags ctx bitmap ⟨lfb, []⟩).log = [] := by
  have hclip := blitClip_rejected h
  rw [← requestGeom_eq] at hclip
  unfold blit32
  generalize blitClip (requestGeom params ctx) = clipped at hclip ⊢
  obtain ⟨draw, g⟩ := clipped
  cases hclip
  rfl

theorem blitCore_inside (core : Core) (srcBase stride w h outX outY : BitVec 32) :
    (∀ a ∈ (blitCore core ctx bitmap srcBase stride w h outX outY ⟨lfb, []⟩).log, Inside ctx a) ↔
      ∀ j < h.toInt.toNat, ∀ i < w.toInt.toNat, InWindow ctx.winLeft ctx.winWidth (outX + BitVec.ofNat 32 i) ∧
          InWindow ctx.winTop ctx.winHeight (outY + BitVec.ofNat 32 j) := by
  unfold blitCore
  rw [blitRows_log]
  simp [atPosition_inside]

theorem blit32_log_accepted (hx : (xAxis params ctx).Accepted) (hy : (yAxis params ctx).Accepted) :
    (∀ a ∈ (blit32 params flags ctx bitmap ⟨lfb, []⟩).log, Inside ctx a) ↔
      ∀ j < ((yAxis params ctx).last - (yAxis params ctx).first).toInt.toNat,
        ∀ i < ((xAxis params ctx).last - (xAxis params ctx).first).toInt.toNat, InWindow ctx.winLeft ctx.winWidth
              (outPos flags (xAxis params ctx).first ctx.winLeft ctx.clientLeft + BitVec.ofNat 32 i) ∧
            InWindow ctx.winTop ctx.winHeight
              (outPos flags (yAxis params ctx).first ctx.winTop ctx.clientTop + BitVec.ofNat 32 j) := by
  have hclip := blitClip_accepted hx hy
  rw [← requestGeom_eq] at hclip
  unfold blit32
  rw [hclip]
  dsimp only
  rw [if_neg (by simp)]
  by_cases hempty : (xAxis params ctx).last - (xAxis params ctx).first = 0 ∨
      (yAxis params ctx).last - (yAxis params ctx).first = 0
  · rw [if_pos hempty]
    rcases hempty with hempty | hempty <;> simp [hempty]
  rw [if_neg hempty]
  by_cases h32 : ctx.bpp = 32
  · rw [if_pos h32]
    exact blitCore_inside _ _ _ _ _ _ _
  by_cases h24 : ctx.bpp = 24
  · rw [if_neg h32, if_pos h24]
    exact blitCore_inside _ _ _ _ _ _ _
  · rw [if_neg h32, if_neg h24]
    exact blitCore_inside _ _ _ _ _ _ _

theorem inWindow_iff {first last win len client : Nat} (hfirst : first < last) (hlast : last ≤ len + 1)
    (hclient : client ≤ len) (hlen : len < 2 ^ 31) (hright : win + len < 2 ^ 32) :
    (∀ i < last - first, win ≤ (first + win + client + i) % 2 ^ 32 ∧
      (first + win + client + i) % 2 ^ 32 ≤ win + len) ↔ last + client ≤ len + 1 := by
  constructor
  · intro h
    obtain ⟨hlo, hhi⟩ := h (last - first - 1) (by omega)
    rw [show first + win + client + (last - first - 1) = last + win + client - 1 by omega] at hlo hhi
    by_contra hgt
    -- A sum that wraps ends left of the window.
    rcases Nat.lt_or_ge (last + win + client - 1) (2 ^ 32) with hlt | hge
    · rw [Nat.mod_eq_of_lt hlt] at hhi
      omega
    · rw [Nat.mod_eq_sub_mod hge, Nat.mod_eq_of_lt (by omega)] at hlo
      omega
  · intro h i hi
    rw [Nat.mod_eq_of_lt (by omega)]
    omega

theorem toInt_sub_toNat {x y : BitVec 32} (hx : 0 ≤ x.toInt) (hy : 0 ≤ y.toInt) :
    (y - x).toInt.toNat = y.toNat - x.toNat := by
  obtain ⟨-, hxlt⟩ := Axis.toInt_eq_toNat hx
  obtain ⟨-, hylt⟩ := Axis.toInt_eq_toNat hy
  have hcond := toInt_eq_toNat_cond (y - x)
  rcases Nat.lt_or_ge y.toNat x.toNat with hlt | hge
  · have hsub : (y - x).toNat = 2 ^ 32 + y.toNat - x.toNat := by bv_omega
    omega
  · have hsub : (y - x).toNat = y.toNat - x.toNat := by bv_omega
    omega

theorem Axis.inWindow_iff {a : Axis} (hdrawn : a.Drawn) {win client display : BitVec 32} (hwin : 0 ≤ win.toInt)
    (hright : win.toInt + a.winLen.toInt < display.toNat) (hclient : 0 ≤ client.toInt ∧ client.toInt ≤ a.winLen.toInt) :
    (∀ i < (a.last - a.first).toInt.toNat,
        InWindow win a.winLen (outPos flags a.first win client + BitVec.ofNat 32 i)) ↔
      flags &&& blitClientRelative = 0 ∨ a.last.toInt + client.toInt ≤ a.winLen.toInt + 1 := by
  obtain ⟨haccepted, hnonempty⟩ := hdrawn
  have hsucc := Axis.toInt_winLen_add_one (hclient.1.trans hclient.2) haccepted
  obtain ⟨hfirst0, hlast0, hlast⟩ := Axis.bounds (by omega) haccepted
  obtain ⟨hlen, hlenlt⟩ := toInt_eq_toNat (hclient.1.trans hclient.2)
  obtain ⟨hwin', hwinlt⟩ := toInt_eq_toNat hwin
  obtain ⟨hclient', -⟩ := toInt_eq_toNat hclient.1
  rw [toInt_sub_toNat hfirst0 hlast0]
  obtain ⟨hf, -⟩ := toInt_eq_toNat hfirst0
  obtain ⟨hl, -⟩ := toInt_eq_toNat hlast0
  -- With the flag the client's offset counts, without it nothing does.
  have hpos (c i : Nat) (hc : (outPos flags a.first win client).toNat = (a.first.toNat + win.toNat + c) % 2 ^ 32) :
      InWindow win a.winLen (outPos flags a.first win client + BitVec.ofNat 32 i) ↔
        win.toNat ≤ (a.first.toNat + win.toNat + c + i) % 2 ^ 32 ∧
          (a.first.toNat + win.toNat + c + i) % 2 ^ 32 ≤ win.toNat + a.winLen.toNat := by
    have htoNat : (outPos flags a.first win client + BitVec.ofNat 32 i).toNat =
        (a.first.toNat + win.toNat + c + i) % 2 ^ 32 := by
      rw [toNat_add, toNat_ofNat, hc]
      omega
    unfold InWindow
    rw [htoNat]
    omega
  by_cases hflag : flags &&& blitClientRelative = 0
  · have hc : (outPos flags a.first win client).toNat = (a.first.toNat + win.toNat + 0) % 2 ^ 32 := by
      rw [outPos, if_neg (not_not.mpr hflag), toNat_add, Nat.add_zero]
    simp only [hpos 0 _ hc, hflag, true_or, iff_true]
    exact (Blit.inWindow_iff (by omega) (by omega) (Nat.zero_le _) hlenlt (by omega)).mpr (by omega)
  have hc : (outPos flags a.first win client).toNat = (a.first.toNat + win.toNat + client.toNat) % 2 ^ 32 := by
    rw [outPos, if_pos hflag, toNat_add, toNat_add, Nat.mod_add_mod]
  simp only [hpos client.toNat _ hc, hflag, false_or]
  rw [Blit.inWindow_iff (by omega) (by omega) (by omega) hlenlt (by omega)]
  omega

/-- The offset of the client area does not move what is drawn over the right or the lower edge. -/
theorem blit32_inside_iff {displayWidth displayHeight : BitVec 32} (hscreen : OnScreen ctx displayWidth displayHeight) :
    (∀ a ∈ (blit32 params flags ctx bitmap ⟨lfb, []⟩).log, Inside ctx a) ↔
      ¬ ((xAxis params ctx).Drawn ∧ (yAxis params ctx).Drawn) ∨ flags &&& blitClientRelative = 0 ∨
        (xAxis params ctx).last.toInt + ctx.clientLeft.toInt ≤ ctx.winWidth.toInt + 1 ∧
          (yAxis params ctx).last.toInt + ctx.clientTop.toInt ≤ ctx.winHeight.toInt + 1 := by
  have hwidth : 0 ≤ (xAxis params ctx).winLen.toInt := hscreen.clientLeft.1.trans hscreen.clientLeft.2
  have hheight : 0 ≤ (yAxis params ctx).winLen.toInt := hscreen.clientTop.1.trans hscreen.clientTop.2
  by_cases haccepted : (xAxis params ctx).Accepted ∧ (yAxis params ctx).Accepted
  · obtain ⟨hx, hy⟩ := haccepted
    have hxdrawn := Axis.drawn_iff (by rw [Axis.toInt_winLen_add_one hwidth hx]; omega) hx
    have hydrawn := Axis.drawn_iff (by rw [Axis.toInt_winLen_add_one hheight hy]; omega) hy
    rw [blit32_log_accepted hx hy]
    by_cases hdrawn : (xAxis params ctx).Drawn ∧ (yAxis params ctx).Drawn
    · have hxpos := hxdrawn.mp hdrawn.1
      have hypos := hydrawn.mp hdrawn.2
      have hxin := @Axis.inWindow_iff flags _ hdrawn.1 _ _ _ hscreen.left hscreen.right hscreen.clientLeft
      have hyin := @Axis.inWindow_iff flags _ hdrawn.2 _ _ _ hscreen.top hscreen.bottom hscreen.clientTop
      constructor
      · intro h
        rcases hxin.mp fun i hi => (h 0 (by omega) i hi).1 with hflag | hxle
        · exact .inr (.inl hflag)
        rcases hyin.mp fun j hj => (h j hj 0 (by omega)).2 with hflag | hyle
        · exact .inr (.inl hflag)
        · exact .inr (.inr ⟨hxle, hyle⟩)
      · rintro (hnot | hflag | ⟨hxle, hyle⟩) j hj i hi
        · exact absurd hdrawn hnot
        · exact ⟨hxin.mpr (.inl hflag) i hi, hyin.mpr (.inl hflag) j hj⟩
        · exact ⟨hxin.mpr (.inr hxle) i hi, hyin.mpr (.inr hyle) j hj⟩
    · refine ⟨fun _ => .inl hdrawn, fun _ j hj i hi => ?_⟩
      exact absurd ⟨hxdrawn.mpr (by omega), hydrawn.mpr (by omega)⟩ hdrawn
  · rw [blit32_log_rejected haccepted]
    refine ⟨fun _ => .inl fun hdrawn => haccepted ⟨hdrawn.1.1, hdrawn.2.1⟩, fun _ a ha => ?_⟩
    cases ha

def smallWindow : Blit32Ctx where
  winLeft := 0
  winTop := 0
  winWidth := 99
  winHeight := 49
  clientLeft := 5
  clientTop := 20
  slotIdx := 1
  bpp := 32
  winMap _ := 1
  bpsLut y := y * 2560
  dwidthLut y := y * 640
  selectCursor := 0
  softwareCursor := 1
  checkMouse color _ := color

theorem smallWindow_onScreen : OnScreen smallWindow 640 480 := by
  constructor <;> decide

def onePixel (column : BitVec 8) (i : Nat) : BitVec 8 :=
  if i = 0 then column else if i = 8 ∨ i = 12 ∨ i = 24 ∨ i = 28 then 1 else if i = 36 then 4 else 0

theorem blit32_inside_last :
    OnScreen smallWindow 640 480 ∧
      ∀ a ∈ (blit32 (onePixel 94) 0x20000000 smallWindow (fun _ => 0) ⟨fun _ => 0, []⟩).log, Inside smallWindow a :=
  ⟨smallWindow_onScreen, (blit32_inside_iff smallWindow_onScreen).mpr (.inr (.inr (by decide +kernel)))⟩

/-- Column 95 is in the window before the client's offset is added, and outside after it. -/
theorem blit32_leaves_window :
    ¬ ∀ (params : Nat → BitVec 8) (flags : BitVec 32) (ctx : Blit32Ctx) (bitmap lfb : Memory.Mem)
      (displayWidth displayHeight : BitVec 32), OnScreen ctx displayWidth displayHeight →
        ∀ a ∈ (blit32 params flags ctx bitmap ⟨lfb, []⟩).log, Inside ctx a := by
  intro h
  have hinside := h (onePixel 95) 0x20000000 smallWindow (fun _ => 0) (fun _ => 0) 640 480 smallWindow_onScreen
  have hread : ∃ a ∈ (blit32 (onePixel 95) 0x20000000 smallWindow (fun _ => 0) ⟨fun _ => 0, []⟩).log, a.x = 100 := by
    decide +kernel
  obtain ⟨a, ha, hx⟩ := hread
  obtain ⟨⟨-, hright⟩, -⟩ := hinside a ha
  rw [hx] at hright
  revert hright
  decide

end Kolibri.Blit
