import Kolibri.Lib.Registers
import Kolibri.Time.Gregorian

/-! # The clock of the machine (`fs_get_time.rs`, `fs_read_cmos.rs`)

The CMOS registers are in BCD, with two digits of the year.
-/

namespace Kolibri.Calendar

open Registers BitVec

/-- The two digits of a register. The upper bit of the tens is masked out. -/
def fsReadCmosBcd (raw : BitVec 8) : BitVec 16 :=
  let ax := (raw &&& 0x7F#8).setWidth 16
  let ax := ax <<< 4
  let ax := (ax &&& 0xFF00#16) ||| (ax &&& 0x00FF#16) >>> 4
  let ah := (ax >>> 8).setWidth 8
  let al := ax.setWidth 8
  let sum := ah.setWidth 16 * 10 + al.setWidth 16
  sum % 100

def fsReadCmos (rawRead : BitVec 32 → BitVec 32) (reg : BitVec 8) : BitVec 16 :=
  fsReadCmosBcd ((rawRead (reg.setWidth 32)).setWidth 8)

def toLeBytes (v : BitVec 32) : List (BitVec 8) :=
  [v.setWidth 8, (v >>> 8).setWidth 8, (v >>> 16).setWidth 8, (v >>> 24).setWidth 8]

def BdfeTime.fromBytes (b : List (BitVec 8)) : BdfeTime where
  sec := b.getD 0 0
  min := b.getD 1 0
  hour := b.getD 2 0
  day := b.getD 4 0
  month := b.getD 5 0
  year := b.getD 7 0 ++ b.getD 6 0

def datePart (day month year2 : BitVec 16) : BitVec 32 :=
  let eax := setLow16 0#32 day
  let eax := eax.rotateRight 8
  let eax := setLow16 eax month
  let eax := eax.rotateRight 8
  let eax := setLow16 eax year2
  let eax := eax + 2000#32
  eax.rotateRight 16

def timePart (sec min hour : BitVec 16) : BitVec 32 :=
  let eax := setLow16 0#32 sec
  let eax := eax.rotateRight 8
  let eax := setLow16 eax min
  let eax := eax.rotateRight 8
  let eax := setLow16 eax hour
  eax.rotateRight 16

def bdfeFromCmosFields (day month year2 sec min hour : BitVec 16) : BdfeTime :=
  BdfeTime.fromBytes (toLeBytes (timePart sec min hour) ++ toLeBytes (datePart day month year2))

def bdfeFromCmosReader (readCmos : BitVec 8 → BitVec 16) : BdfeTime :=
  bdfeFromCmosFields (readCmos 7) (readCmos 8) (readCmos 9) (readCmos 0) (readCmos 2) (readCmos 4)

def fsGetTime (rawRead : BitVec 32 → BitVec 32) : BitVec 32 :=
  fsCalculateTime (bdfeFromCmosReader (fsReadCmos rawRead))

/-! ## Instants -/

structure Instant where
  year : Nat
  month : Nat
  day : Nat
  hour : Nat
  min : Nat
  sec : Nat
  year_mem : 2001 ≤ year ∧ year ≤ 2099
  month_mem : 1 ≤ month ∧ month ≤ 12
  day_mem : 1 ≤ day ∧ day ≤ monthDays year month
  hour_lt : hour < 24
  min_lt : min < 60
  sec_lt : sec < 60

variable (t : Instant)

def Instant.seconds : Nat :=
  (((daysOfYears (t.year - 1601) - daysOfYears 400 + daysOfMonths t.year (t.month - 1) + (t.day - 1)) * 24 +
    t.hour) * 60 + t.min) * 60 + t.sec

def bcd (n : Nat) : BitVec 8 := BitVec.ofNat 8 (n / 10 * 16 + n % 10)

structure Instant.Shown (t : Instant) (rawRead : BitVec 32 → BitVec 32) : Prop where
  sec : (rawRead 0).setWidth 8 = bcd t.sec
  min : (rawRead 2).setWidth 8 = bcd t.min
  hour : (rawRead 4).setWidth 8 = bcd t.hour
  day : (rawRead 7).setWidth 8 = bcd t.day
  month : (rawRead 8).setWidth 8 = bcd t.month
  year : (rawRead 9).setWidth 8 = bcd (t.year % 100)

def Instant.cmos (reg : BitVec 32) : BitVec 32 :=
  (match reg.toNat with
    | 0 => bcd t.sec
    | 2 => bcd t.min
    | 4 => bcd t.hour
    | 7 => bcd t.day
    | 8 => bcd t.month
    | 9 => bcd (t.year % 100)
    | _ => 0).setWidth 32

theorem Instant.cmos_shown : t.Shown t.cmos := by
  constructor <;> exact setWidth_setWidth_of_le _ (by decide)

theorem Instant.day_le : t.day ≤ 31 := by
  obtain ⟨-, hday⟩ := t.day_mem
  have hmonth : monthDays t.year t.month ≤ 31 := by
    unfold monthDays
    split <;> (try split) <;> omega
  omega

/-! ## Registers -/

theorem fsReadCmosBcd_bcd {n : Nat} (h : n < 100) :
    fsReadCmosBcd (bcd n) = BitVec.ofNat 16 (if n < 80 then n else n - 80) := by
  have hall : ∀ n < 100, fsReadCmosBcd (bcd n) = BitVec.ofNat 16 (if n < 80 then n else n - 80) := by decide +kernel
  exact hall n h

theorem fsReadCmosBcd_small {n : Nat} (h : n < 80) : fsReadCmosBcd (bcd n) = BitVec.ofNat 16 n := by
  rw [fsReadCmosBcd_bcd (by omega), if_pos h]

/-! ## Packing -/

theorem toNat_two_fields {a b : BitVec 16} (ha : a.toNat < 256) (hb : b.toNat < 256) :
    ((setLow16 ((setLow16 0#32 a).rotateRight 8) b).rotateRight 8).toNat = b.toNat * 2 ^ 24 + a.toNat * 2 ^ 16 := by
  have hfirst : ((setLow16 0#32 a).rotateRight 8).toNat = a.toNat * 2 ^ 24 := by
    rw [toNat_rotateRight_of_lt (by decide), toNat_setLow16, toNat_ofNat]
    omega
  rw [toNat_rotateRight_of_lt (by decide), toNat_setLow16, hfirst]
  omega

theorem toNat_datePart {day month year2 : BitVec 16} (hday : day.toNat < 256) (hmonth : month.toNat < 256)
    (hyear : year2.toNat < 100) :
    (datePart day month year2).toNat = (2000 + year2.toNat) * 2 ^ 16 + month.toNat * 256 + day.toNat := by
  rw [datePart, toNat_rotateRight_of_lt (by decide), toNat_add, toNat_setLow16, toNat_two_fields hday hmonth,
    toNat_ofNat]
  omega

theorem toNat_timePart {sec min hour : BitVec 16} (hsec : sec.toNat < 256) (hmin : min.toNat < 256) :
    (timePart sec min hour).toNat = hour.toNat * 2 ^ 16 + min.toNat * 256 + sec.toNat := by
  rw [timePart, toNat_rotateRight_of_lt (by decide), toNat_setLow16, toNat_two_fields hsec hmin]
  omega

theorem fromBytes_toLeBytes (time date : BitVec 32) :
    BdfeTime.fromBytes (toLeBytes time ++ toLeBytes date) =
      ⟨time.setWidth 8, (time >>> 8).setWidth 8, (time >>> 16).setWidth 8, date.setWidth 8, (date >>> 8).setWidth 8,
        (date >>> 16).setWidth 16⟩ := by
  have hyear : ((date >>> 24).setWidth 8 ++ (date >>> 16).setWidth 8 : BitVec 16) = (date >>> 16).setWidth 16 := by
    apply eq_of_getLsbD_eq
    intro i hi
    simp only [getLsbD_append, getLsbD_setWidth, getLsbD_ushiftRight]
    interval_cases i <;> simp
  rw [← hyear]
  rfl

theorem bdfeFromCmosFields_eq {day month year2 sec min hour : BitVec 16} (hday : day.toNat < 256)
    (hmonth : month.toNat < 256) (hyear : year2.toNat < 100) (hsec : sec.toNat < 256) (hmin : min.toNat < 256) :
    bdfeFromCmosFields day month year2 sec min hour =
      ⟨sec.setWidth 8, min.setWidth 8, hour.setWidth 8, day.setWidth 8, month.setWidth 8, year2 + 2000#16⟩ := by
  have hdate := toNat_datePart hday hmonth hyear
  have htime := @toNat_timePart sec min hour hsec hmin
  rw [bdfeFromCmosFields, fromBytes_toLeBytes, BdfeTime.mk.injEq]
  refine ⟨?_, ?_, ?_, ?_, ?_, ?_⟩ <;> apply eq_of_toNat_eq <;>
    simp [toNat_setWidth, toNat_ushiftRight, Nat.shiftRight_eq_div_pow, toNat_add, toNat_ofNat, hdate, htime]
  all_goals omega

theorem bdfeFromCmosReader_shown {t : Instant} {rawRead : BitVec 32 → BitVec 32} (h : t.Shown rawRead) :
    bdfeFromCmosReader (fsReadCmos rawRead) =
      ⟨BitVec.ofNat 8 t.sec, BitVec.ofNat 8 t.min, BitVec.ofNat 8 t.hour, BitVec.ofNat 8 t.day, BitVec.ofNat 8 t.month,
        BitVec.ofNat 16 (if t.year < 2080 then t.year else t.year - 80)⟩ := by
  have hday := t.day_le
  obtain ⟨-, hmonth⟩ := t.month_mem
  obtain ⟨hfrom, hto⟩ := t.year_mem
  have hhour := t.hour_lt
  have hmin := t.min_lt
  have hsec := t.sec_lt
  have hread {r : BitVec 8} {n : Nat} (hn : n < 80) (hreg : (rawRead (r.setWidth 32)).setWidth 8 = bcd n) :
      fsReadCmos rawRead r = BitVec.ofNat 16 n := by
    rw [fsReadCmos, hreg, fsReadCmosBcd_small hn]
  have hyear : fsReadCmos rawRead 9 = BitVec.ofNat 16 (if t.year < 2080 then t.year - 2000 else t.year - 2080) := by
    have hreg : (rawRead ((9 : BitVec 8).setWidth 32)).setWidth 8 = bcd (t.year % 100) := h.year
    rw [fsReadCmos, hreg, fsReadCmosBcd_bcd (by omega)]
    congr 1
    split_ifs <;> omega
  rw [bdfeFromCmosReader, hread (r := 7) (by omega) h.day, hread (r := 8) (by omega) h.month, hyear,
    hread (r := 0) (by omega) h.sec, hread (r := 2) (by omega) h.min, hread (r := 4) (by omega) h.hour]
  have hfits {n : Nat} (hn : n < 80) : (BitVec.ofNat 16 n).toNat = n := Nat.mod_eq_of_lt (by omega)
  rw [bdfeFromCmosFields_eq, BdfeTime.mk.injEq]
  · refine ⟨?_, ?_, ?_, ?_, ?_, ?_⟩
    on_goal 6 =>
      rw [← ofNat_add]
      congr 1
      split_ifs <;> omega
    all_goals exact setWidth_ofNat_of_le (by decide) _
  · rw [hfits (by omega)]
    omega
  · rw [hfits (by omega)]
    omega
  · rw [hfits (by split_ifs <;> omega)]
    split_ifs <;> omega
  · rw [hfits (by omega)]
    omega
  · rw [hfits (by omega)]
    omega

/-! ## Seconds -/

theorem monthSum_le {leap : Prop} [Decidable leap] {month : Nat} (h : month < 12) :
    (monthSum (if leap then 12 else 0) month).toNat ≤ 335 := by
  have hall : ∀ month < 12, (monthSum 0 month).toNat ≤ 335 ∧ (monthSum 12 month).toNat ≤ 335 := by decide +kernel
  split
  · exact (hall month h).2
  · exact (hall month h).1

theorem Instant.seconds_eq {years : Nat} (h : t.year = 2001 + years) :
    t.seconds = (((years * 365 + years / 4 + (monthSum (if (2001 + years) % 4 = 0 then 12 else 0) (t.month - 1)).toNat +
      (t.day - 1)) * 24 + t.hour) * 60 + t.min) * 60 + t.sec := by
  obtain ⟨-, hto⟩ := t.year_mem
  obtain ⟨-, hmonth⟩ := t.month_mem
  have hdays : daysOfYears (t.year - 1601) - daysOfYears 400 = years * 365 + years / 4 := by
    have hall := @daysOfYears_eq years (by omega)
    have hstart := daysOfYears_2001
    rw [if_pos (by omega)] at hall
    rw [show t.year - 1601 = 400 + years by omega]
    omega
  have hleap : (isLeap t.year = true) = ((2001 + years) % 4 = 0) := by
    rw [h, eq_iff_iff, isLeap_eq (by omega)]
    omega
  have hmonths := @monthSum_eq t.year (t.month - 1) (by omega)
  simp only [hleap] at hmonths
  rw [Instant.seconds, ← hmonths, hdays]

theorem fsCalculateTime_before {t : BdfeTime} (h : t.year.toNat < 2001) :
    fsCalculateTime t = fsCalculateTime { t with year := 2001 } := by
  have hlt : t.year.setWidth 32 < (2001 : BitVec 32) := by bv_omega
  simp only [fsCalculateTime, if_pos hlt]
  rfl

theorem fsCalculateTime_lt {t : BdfeTime} {years : Nat} (hyear : t.year.toNat ≤ 2001 + years) (hyears : years ≤ 98)
    (hmonth : t.month.toNat ≤ 12) (hday : 1 ≤ t.day.toNat ∧ t.day.toNat ≤ 31) (hhour : t.hour.toNat < 24)
    (hmin : t.min.toNat < 60) (hsec : t.sec.toNat < 60) :
    (fsCalculateTime t).toNat < (years + 1) * 366 * 86400 := by
  wlog hfrom : 2001 ≤ t.year.toNat generalizing t
  · rw [fsCalculateTime_before (by omega)]
    exact this (t := { t with year := 2001 }) (Nat.le_add_right _ _) hmonth hday hhour hmin hsec (le_refl _)
  obtain ⟨n, hn⟩ := Nat.exists_eq_add_of_le hfrom
  have hmonths := @monthSum_le ((2001 + n) % 4 = 0) _ (t.month.toNat - 1) (by omega)
  rw [fsCalculateTime_eq hn hday.1, toNat_ofNat]
  generalize (monthSum _ _).toNat = days at hmonths
  exact lt_of_le_of_lt (Nat.mod_le _ _) (by omega)

/-- The clock is read right up to the end of 2079. The years from 2080 on lose eighty years. -/
theorem fs_get_time_iff {t : Instant} {rawRead : BitVec 32 → BitVec 32} (h : t.Shown rawRead) :
    (fsGetTime rawRead).toNat = t.seconds ↔ t.year < 2080 := by
  have hday := t.day_mem
  have hday31 := t.day_le
  have hmonth := t.month_mem
  obtain ⟨hfrom, hto⟩ := t.year_mem
  have hhour := t.hour_lt
  have hmin := t.min_lt
  have hsec := t.sec_lt
  obtain ⟨years, hyears⟩ := Nat.exists_eq_add_of_le hfrom
  have hmonths := @monthSum_le ((2001 + years) % 4 = 0) _ (t.month - 1) (by omega)
  have hseconds := t.seconds_eq hyears
  have hfits {n : Nat} (hn : n < 60) : (BitVec.ofNat 8 n).toNat = n := Nat.mod_eq_of_lt (by omega)
  have hfits16 {n : Nat} (hn : n < 2100) : (BitVec.ofNat 16 n).toNat = n := Nat.mod_eq_of_lt (by omega)
  rw [fsGetTime, bdfeFromCmosReader_shown h]
  split_ifs with hyear
  · refine iff_of_true ?_ hyear
    rw [@fsCalculateTime_eq _ years]
    · dsimp only
      rw [hfits (by omega), hfits (by omega), hfits (by omega), hfits (by omega), hfits (by omega), ← hseconds,
        toNat_ofNat]
      generalize (monthSum _ _).toNat = days at hseconds hmonths
      omega
    · rw [hfits16 (by omega), hyears]
    · rw [hfits (by omega)]
      exact hday.1
  · refine iff_of_false ?_ hyear
    have hlt := @fsCalculateTime_lt ⟨BitVec.ofNat 8 t.sec, BitVec.ofNat 8 t.min, BitVec.ofNat 8 t.hour,
      BitVec.ofNat 8 t.day, BitVec.ofNat 8 t.month, BitVec.ofNat 16 (t.year - 80)⟩ 18
      (by rw [hfits16 (by omega)]; omega) (by decide) (by rw [hfits (by omega)]; exact hmonth.2)
      (by rw [hfits (by omega)]; exact ⟨hday.1, hday31⟩) (by rwa [hfits (by omega)]) (by rwa [hfits hmin])
      (by rwa [hfits hsec])
    omega

def june2026 : Instant where
  year := 2026
  month := 6
  day := 15
  hour := 12
  min := 45
  sec := 30
  year_mem := by decide
  month_mem := by decide
  day_mem := by decide
  hour_lt := by decide
  min_lt := by decide
  sec_lt := by decide

theorem fs_get_time_june2026 : june2026.Shown june2026.cmos ∧ (fsGetTime june2026.cmos).toNat = june2026.seconds :=
  ⟨june2026.cmos_shown, (fs_get_time_iff june2026.cmos_shown).mpr (by decide)⟩

def newYear2080 : Instant where
  year := 2080
  month := 1
  day := 1
  hour := 0
  min := 0
  sec := 0
  year_mem := by decide
  month_mem := by decide
  day_mem := by decide
  hour_lt := by decide
  min_lt := by decide
  sec_lt := by decide

/-- The first second of 2080 is read as the first second of 2001. -/
theorem fs_get_time_newYear2080 : ¬ ∀ (t : Instant) (rawRead : BitVec 32 → BitVec 32), t.Shown rawRead →
    (fsGetTime rawRead).toNat = t.seconds := by
  intro h
  have hread := h newYear2080 newYear2080.cmos newYear2080.cmos_shown
  revert hread
  decide +kernel

end Kolibri.Calendar
