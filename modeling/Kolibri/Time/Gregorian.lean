import Kolibri.Time.Calendar

/-! # Dates of NTFS files

The Gregorian calendar leaves out the leap day of 2100, which `fs_time2bdfe` does not.
-/

namespace Kolibri.Calendar

open BitVec

variable (filetimeLo filetimeHi : BitVec 32)

def ntfsFiletimeToSecs : BitVec 32 :=
  let borrow := filetimeLo < 3365781504#32
  let eax := filetimeLo - 3365781504#32
  let edx := filetimeHi - 29389701#32 - if borrow then 1#32 else 0#32
  let edx := if 10000000#32 ≤ edx then 0 else edx
  let dividend := edx.toNat * 2 ^ 32 + eax.toNat
  BitVec.ofNat 32 (dividend / 10000000)

def ntfsDatetimeToBdfe : Option BdfeTime :=
  fsTime2bdfe (ntfsFiletimeToSecs filetimeLo filetimeHi)

/-! ## The Gregorian calendar -/

def isLeap (year : Nat) : Bool := year % 4 = 0 ∧ (year % 100 ≠ 0 ∨ year % 400 = 0)

def yearDays (year : Nat) : Nat := if isLeap year then 366 else 365

def monthDays (year month : Nat) : Nat :=
  match month with
  | 2 => if isLeap year then 29 else 28
  | 4 | 6 | 9 | 11 => 30
  | _ => 31

def daysOfYears : Nat → Nat
  | 0 => 0
  | n + 1 => daysOfYears n + yearDays (1601 + n)

def daysOfMonths (year : Nat) : Nat → Nat
  | 0 => 0
  | n + 1 => daysOfMonths year n + monthDays year (n + 1)

structure IsCivil (filetime : Nat) (t : BdfeTime) : Prop where
  year : 1601 ≤ t.year.toNat
  month : 1 ≤ t.month.toNat ∧ t.month.toNat ≤ 12
  day : 1 ≤ t.day.toNat ∧ t.day.toNat ≤ monthDays t.year.toNat t.month.toNat
  time : t.hour.toNat < 24 ∧ t.min.toNat < 60 ∧ t.sec.toNat < 60
  instant : (((daysOfYears (t.year.toNat - 1601) + daysOfMonths t.year.toNat (t.month.toNat - 1) +
    (t.day.toNat - 1)) * 24 + t.hour.toNat) * 60 + t.min.toNat) * 60 + t.sec.toNat = filetime / 10000000

/-! ## The two calendars -/

def bias : Nat := 29389701 * 2 ^ 32 + 3365781504

theorem daysOfYears_2001 : daysOfYears 400 = 146097 := by decide +kernel

theorem bias_eq : bias = daysOfYears 400 * 86400 * 10000000 := by
  rw [daysOfYears_2001]
  decide

theorem daysOfYears_eq {years : Nat} (h : years < 137) :
    daysOfYears (400 + years) + (if years < 100 then 0 else 1) = 146097 + 365 * years + years / 4 := by
  induction years with
  | zero => rw [Nat.add_zero, daysOfYears_2001]; rfl
  | succ n ih =>
    have hn := ih (by omega)
    rw [← Nat.add_assoc, daysOfYears]
    have hyear : yearDays (1601 + (400 + n)) = if n % 4 = 3 ∧ n ≠ 99 then 366 else 365 := by
      unfold yearDays isLeap
      simp only [decide_eq_true_eq]
      congr 1
      simp only [eq_iff_iff]
      omega
    rw [hyear]
    split_ifs at hn ⊢ <;> omega

theorem isLeap_eq {years : Nat} (h : years < 137) : isLeap (2001 + years) = true ↔ (2001 + years) % 4 = 0 ∧ years ≠ 99 := by
  unfold isLeap
  simp only [decide_eq_true_eq]
  omega

theorem monthSum_eq {year month : Nat} (hmonth : month ≤ 12) :
    (monthSum (if isLeap year then 12 else 0) month).toNat = daysOfMonths year month := by
  cases h : isLeap year <;> interval_cases month <;> simp [monthSum, monthLen, monthTables, daysOfMonths, monthDays, h]

theorem monthLen_eq {year month : Nat} (hmonth : 1 ≤ month ∧ month ≤ 12) :
    (monthLen (if isLeap year then 12 else 0) (month - 1)).toNat = monthDays year month := by
  obtain ⟨h1, h12⟩ := hmonth
  cases h : isLeap year <;> interval_cases month <;> simp [monthLen, monthTables, monthDays, h]

/-! ## What the conversion yields -/

def filetime : Nat := filetimeHi.toNat * 2 ^ 32 + filetimeLo.toNat

theorem ntfsFiletimeToSecs_eq {lo hi : BitVec 32} (hle : bias ≤ filetime lo hi)
    (hlt : (filetime lo hi - bias) / 10000000 < 2 ^ 32) :
    (ntfsFiletimeToSecs lo hi).toNat = (filetime lo hi - bias) / 10000000 := by
  unfold filetime bias at *
  have hticks : (hi - 29389701#32 - if lo < 3365781504#32 then 1#32 else 0#32).toNat * 2 ^ 32 + (lo - 3365781504#32).toNat =
      hi.toNat * 2 ^ 32 + lo.toNat - (29389701 * 2 ^ 32 + 3365781504) := by
    split_ifs with hborrow
    · have : lo.toNat < 3365781504 := hborrow
      simp only [toNat_sub, toNat_ofNat]
      omega
    · have : ¬ lo.toNat < 3365781504 := hborrow
      simp only [toNat_sub, toNat_ofNat]
      omega
  unfold ntfsFiletimeToSecs
  dsimp only
  generalize (hi - 29389701#32 - if lo < 3365781504#32 then 1#32 else 0#32) = edx at *
  rw [if_neg, hticks, toNat_ofNat, Nat.mod_eq_of_lt hlt]
  -- below 2 ^ 32 seconds the high word is below the divisor
  intro hge
  have : 10000000 ≤ edx.toNat := hge
  omega

/-- The days up to 1 March 2100, from the start of 1601. -/
def daysToMarch2100 : Nat := daysOfYears 499 + daysOfMonths 2100 2

theorem daysToMarch2100_eq : daysToMarch2100 = 182315 := by decide +kernel

theorem monthSum_2100 {month : Nat} (hmonth : month ≤ 12) :
    (monthSum 12 month).toNat = daysOfMonths 2100 month + if month < 2 then 0 else 1 := by
  interval_cases month <;> decide

theorem civil_day_iff {years doy month : Nat} {day : BitVec 8} (hyears : years < 137)
    (hin : InYear (if (2001 + years) % 4 = 0 then 12 else 0) doy month day)
    (hdoy : doy < if (2001 + years) % 4 = 0 then 366 else 365) :
    (day.toNat ≤ monthDays (2001 + years) month ∧
      daysOfYears (400 + years) + daysOfMonths (2001 + years) (month - 1) + (day.toNat - 1) =
        146097 + (365 * years + years / 4 + doy)) ↔ 365 * years + years / 4 + doy < 36218 := by
  obtain ⟨hm1, hm12, hd1, hdlen, hsum⟩ := hin
  have hdlen : day.toNat ≤ (monthLen _ (month - 1)).toNat := hdlen
  have hbefore := daysOfYears_eq hyears
  by_cases h99 : years = 99
  · subst h99
    rw [if_pos (by decide)] at hsum hdlen hdoy
    rw [monthSum_2100 (by omega)] at hsum
    rw [if_pos (by decide), Nat.add_zero] at hbefore
    rw [hbefore, show 2001 + 99 = 2100 by decide]
    rcases Nat.lt_or_ge month 3 with h3 | h3
    · rw [if_pos (by omega)] at hsum
      interval_cases month
      · have hjan : monthDays 2100 1 = 31 := by decide
        have hlen : (monthLen 12 (1 - 1)).toNat = 31 := by decide
        have hnone : daysOfMonths 2100 (1 - 1) = 0 := by decide
        omega
      · have hfeb : monthDays 2100 2 = 28 := by decide
        have hjan : daysOfMonths 2100 (2 - 1) = 31 := by decide
        omega
    · rw [if_neg (by omega)] at hsum
      have hmarch : 59 ≤ daysOfMonths 2100 (month - 1) := by interval_cases month <;> decide
      omega
  · have hleap : (if (2001 + years) % 4 = 0 then 12 else 0) = if isLeap (2001 + years) then 12 else 0 := by
      congr 1
      rw [isLeap_eq hyears]
      simp [h99]
    rw [hleap, monthSum_eq (by omega)] at hsum
    rw [hleap, monthLen_eq ⟨hm1, hm12⟩] at hdlen
    have hdoy : doy < 366 := by
      split_ifs at hdoy <;> omega
    split_ifs at hbefore with hcentury <;> omega

/-- The date is the civil one exactly before the missing leap day. -/
theorem ntfsDatetimeToBdfe_civil_iff {lo hi : BitVec 32} (hle : bias ≤ filetime lo hi)
    (hlt : (filetime lo hi - bias) / 10000000 < 2 ^ 32) :
    (∃ t, ntfsDatetimeToBdfe lo hi = some t ∧ IsCivil (filetime lo hi) t) ↔
      filetime lo hi < daysToMarch2100 * 86400 * 10000000 := by
  obtain ⟨t, years, doy, ht, hyear, hyears, hdays, hdoy, hin, hhour, hmin, hsec⟩ :=
    fsTime2bdfe_spec (ntfsFiletimeToSecs lo hi)
  have hciv := civil_day_iff hyears hin hdoy
  rw [ntfsFiletimeToSecs_eq hle hlt] at hdays hhour hmin hsec
  have hbias := bias_eq
  rw [daysOfYears_2001] at hbias
  rw [daysToMarch2100_eq, ntfsDatetimeToBdfe, ht]
  generalize filetime lo hi = ticks at *
  obtain ⟨hm1, hm12, hd1, -, -⟩ := hin
  rw [← hyear] at hciv
  have hyear' : t.year.toNat - 1601 = 400 + years := by omega
  constructor
  · rintro ⟨t', ht', hcivil⟩
    cases ht'
    have hinstant := hcivil.instant
    rw [hyear'] at hinstant
    have := hciv.mp ⟨hcivil.day.2, by omega⟩
    omega
  · intro hticks
    obtain ⟨hday, hnumber⟩ := hciv.mpr (by omega)
    refine ⟨t, rfl, by omega, ⟨hm1, hm12⟩, ⟨hd1, hday⟩, ⟨by omega, by omega, by omega⟩, ?_⟩
    rw [hyear', hnumber]
    omega

theorem ntfsDatetimeToBdfe_civil_2099 : ∃ t, ntfsDatetimeToBdfe 0x76CB6980#32 0x022F7163#32 = some t ∧
    IsCivil (filetime 0x76CB6980#32 0x022F7163#32) t :=
  (ntfsDatetimeToBdfe_civil_iff (by decide +kernel) (by decide +kernel)).mpr (by
    rw [daysToMarch2100_eq]
    decide +kernel)

/-- On 1 March 2100 the conversion still says 29 February. -/
theorem ntfsDatetimeToBdfe_leap_day :
    ¬ ∀ lo hi : BitVec 32, bias ≤ filetime lo hi → (filetime lo hi - bias) / 10000000 < 2 ^ 32 →
      ∃ t, ntfsDatetimeToBdfe lo hi = some t ∧ IsCivil (filetime lo hi) t := by
  intro hall
  obtain ⟨t, ht, hcivil⟩ := hall 0x3DC34000#32 0x022F9FC0#32 (by decide +kernel) (by decide +kernel)
  cases ht
  exact absurd hcivil.day.2 (by decide)

end Kolibri.Calendar
