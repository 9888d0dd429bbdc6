import Mathlib

/-!
# Dates and seconds (`time.rs`)

Seconds count from the start of 2001. Every fourth year has a leap day.
-/

namespace Kolibri.Calendar

open BitVec

structure BdfeTime where
  sec : BitVec 8
  min : BitVec 8
  hour : BitVec 8
  day : BitVec 8
  month : BitVec 8
  year : BitVec 16
  deriving DecidableEq

/-- `months`, then `months2` with the leap day. -/
def monthTables : List (BitVec 8) :=
  [31, 28, 31, 30, 31, 30, 31, 31, 30, 31, 30, 31, 31, 29, 31, 30, 31, 30, 31, 31, 30, 31, 30, 31]

def monthLen (tableBase i : Nat) : BitVec 8 := monthTables.getD (tableBase + i) 0

def monthSum (tableBase : Nat) : Nat → BitVec 32
  | 0 => 0
  | n + 1 => monthSum tableBase n + (monthLen tableBase n).setWidth 32

def fsCalculateTime (t : BdfeTime) : BitVec 32 :=
  let year := t.year.setWidth 32
  let years := if year < 2001 then 0 else year - 2001
  let tableBase := if (years + 1) &&& 3 = 0 then 12 else 0
  let days := years * 365 + years >>> 2 + monthSum tableBase (t.month.toNat - 1)
  let days := days - 1 + t.day.setWidth 32
  let total := days * 24 + t.hour.setWidth 32
  let total := total * 60 + t.min.setWidth 32
  total * 60 + t.sec.setWidth 32

/-- The days of the year stand in `dh` and `dl`. `none` means too little fuel. -/
def peelMonths (tableBase : Nat) : Nat → Nat → BitVec 8 → BitVec 8 → Option (Nat × BitVec 8)
  | 0, _, _, _ => none
  | fuel + 1, month, dh, dl =>
    let mlen := monthLen tableBase month
    let month := month + 1
    let newDl := dl - mlen
    if mlen ≤ dl then peelMonths tableBase fuel month dh newDl
    else
      let newDh := dh - 1
      if 0 ≤ newDh.toInt then peelMonths tableBase fuel month newDh newDl
      -- The last month was taken off too much. Days count from 1.
      else some (month, newDl + mlen + 1)

def yearOfDays (days : Nat) : Nat × Nat :=
  let edx := days % 365
  let years := days / 365
  let leaps := years / 4
  if edx < leaps then
    let year := years + 2001 - 1
    (year, edx + 365 - leaps + if year % 4 = 0 then 1 else 0)
  else (years + 2001, edx - leaps)

variable (secs : BitVec 32)

def fsTime2bdfe : Option BdfeTime := do
  let eax := secs.toNat
  let sec := eax % 60
  let eax := eax / 60
  let min := eax % 60
  let eax := eax / 60
  let hour := eax % 24
  let (year, day) := yearOfDays (eax / 24)
  let tableBase := if year % 4 = 0 then 12 else 0
  let (month, day) ← peelMonths tableBase 24 0 (BitVec.ofNat 8 (day / 256)) (BitVec.ofNat 8 day)
  some {
    sec := BitVec.ofNat 8 sec
    min := BitVec.ofNat 8 min
    hour := BitVec.ofNat 8 hour
    day
    month := BitVec.ofNat 8 month
    year := BitVec.ofNat 16 year }

/-! ## Years -/

theorem yearOfDays_spec {days : Nat} (h : days < 365 * 1000) :
    ∃ years doy, yearOfDays days = (2001 + years, doy) ∧ 365 * years + years / 4 + doy = days ∧
      doy < if (2001 + years) % 4 = 0 then 366 else 365 := by
  unfold yearOfDays
  dsimp only
  split_ifs with hborrow hleap
  · refine ⟨days / 365 - 1, _, Prod.ext (by dsimp only; omega) rfl, by omega, ?_⟩
    rw [if_pos (by omega)]
    omega
  · have hleaps : days / 365 / 4 = (days / 365 - 1) / 4 := by omega
    refine ⟨days / 365 - 1, _, Prod.ext (by dsimp only; omega) rfl, by omega, ?_⟩
    rw [if_neg (by omega)]
    omega
  · refine ⟨days / 365, _, Prod.ext (by dsimp only; omega) rfl, by omega, ?_⟩
    split_ifs <;> omega

/-! ## Months -/

/-- A month and a day of it, at a given place of the year. -/
def InYear (tableBase doy month : Nat) (day : BitVec 8) : Prop :=
  1 ≤ month ∧ month ≤ 12 ∧ 1 ≤ day.toNat ∧ day ≤ monthLen tableBase (month - 1) ∧
    (monthSum tableBase (month - 1)).toNat + day.toNat = doy + 1
  deriving Decidable

theorem peelMonths_spec (leap : Bool) {doy : Nat} (h : doy < if leap then 366 else 365) :
    ∃ month day, peelMonths (if leap then 12 else 0) 24 0 (BitVec.ofNat 8 (doy / 256)) (BitVec.ofNat 8 doy) =
      some (month, day) ∧ InYear (if leap then 12 else 0) doy month day := by
  have hall : ∀ leap : Bool, ∀ doy < if leap then 366 else 365,
      (peelMonths (if leap then 12 else 0) 24 0 (BitVec.ofNat 8 (doy / 256)) (BitVec.ofNat 8 doy)).any
        (fun md => InYear (if leap then 12 else 0) doy md.1 md.2) = true := by decide +kernel
  obtain ⟨⟨month, day⟩, heq, hin⟩ := (Option.any_eq_true ..).mp (hall leap doy h)
  exact ⟨month, day, heq, of_decide_eq_true hin⟩

/-! ## There and back -/

theorem fsCalculateTime_eq {t : BdfeTime} {years : Nat} (hyear : t.year.toNat = 2001 + years)
    (hday : 1 ≤ t.day.toNat) :
    fsCalculateTime t = BitVec.ofNat 32 ((((years * 365 + years / 4 +
      (monthSum (if (2001 + years) % 4 = 0 then 12 else 0) (t.month.toNat - 1)).toNat + (t.day.toNat - 1)) * 24 +
        t.hour.toNat) * 60 + t.min.toNat) * 60 + t.sec.toNat) := by
  have hge : ¬ t.year.setWidth 32 < (2001 : BitVec 32) := by bv_omega
  have hyears : t.year.setWidth 32 - 2001 = BitVec.ofNat 32 years := by bv_omega
  have hshift : BitVec.ofNat 32 years >>> 2 = BitVec.ofNat 32 (years / 4) := by
    apply eq_of_toNat_eq
    rw [toNat_ushiftRight, Nat.shiftRight_eq_div_pow]
    simp only [toNat_ofNat]
    omega
  have hleap : (BitVec.ofNat 32 years + 1) &&& 3 = 0 ↔ (2001 + years) % 4 = 0 := by
    rw [← toNat_inj, toNat_and]
    change (BitVec.ofNat 32 years + 1).toNat &&& (2 ^ 2 - 1) = 0 ↔ _
    rw [Nat.and_two_pow_sub_one_eq_mod, toNat_add, toNat_ofNat]
    change (years % 2 ^ 32 + 1) % 2 ^ 32 % 2 ^ 2 = 0 ↔ _
    omega
  have hdec (b : BitVec 32) : b - 1 + t.day.setWidth 32 = b + BitVec.ofNat 32 (t.day.toNat - 1) := by bv_omega
  simp only [fsCalculateTime, hge, if_false, hyears, hshift, hleap, hdec, ofNat_add, ofNat_mul,
    ofNat_toNat, setWidth_eq]
  rfl

theorem fsTime2bdfe_spec : ∃ t years doy, fsTime2bdfe secs = some t ∧
    t.year.toNat = 2001 + years ∧ years < 137 ∧ 365 * years + years / 4 + doy = secs.toNat / 60 / 60 / 24 ∧
    (doy < if (2001 + years) % 4 = 0 then 366 else 365) ∧
    InYear (if (2001 + years) % 4 = 0 then 12 else 0) doy t.month.toNat t.day ∧
    t.hour.toNat = secs.toNat / 60 / 60 % 24 ∧ t.min.toNat = secs.toNat / 60 % 60 ∧ t.sec.toNat = secs.toNat % 60 := by
  obtain ⟨years, doy, hyear, hdays, hdoy⟩ := @yearOfDays_spec (secs.toNat / 60 / 60 / 24) (by omega)
  obtain ⟨month, day, hpeel, hin⟩ := @peelMonths_spec (decide ((2001 + years) % 4 = 0)) doy (by simpa using hdoy)
  simp only [decide_eq_true_eq] at hpeel hin
  have hmonth := hin.2.1
  simp only [fsTime2bdfe, hyear, hpeel, Option.bind_eq_bind, Option.bind_some]
  refine ⟨_, years, doy, rfl, ?_, by omega, hdays, hdoy, ?_, ?_, ?_, ?_⟩
  · rw [toNat_ofNat]
    omega
  · have hfits : (BitVec.ofNat 8 month).toNat = month := Nat.mod_eq_of_lt (by omega)
    rwa [hfits]
  · exact Nat.mod_eq_of_lt (by omega)
  · exact Nat.mod_eq_of_lt (by omega)
  · exact Nat.mod_eq_of_lt (by omega)

/-! ## Records -/

def leapBase (year : Nat) : Nat := if year % 4 = 0 then 12 else 0

/-- A date and a time, with a leap day in every fourth year. -/
structure BdfeTime.Valid (t : BdfeTime) : Prop where
  month : 1 ≤ t.month.toNat ∧ t.month.toNat ≤ 12
  day : 1 ≤ t.day.toNat ∧ t.day ≤ monthLen (leapBase t.year.toNat) (t.month.toNat - 1)
  hour : t.hour.toNat < 24
  min : t.min.toNat < 60
  sec : t.sec.toNat < 60

def BdfeTime.dayOfYear (t : BdfeTime) : Nat :=
  (monthSum (leapBase t.year.toNat) (t.month.toNat - 1)).toNat + (t.day.toNat - 1)

def BdfeTime.seconds (t : BdfeTime) : Nat :=
  let years := t.year.toNat - 2001
  (((years * 365 + years / 4 + t.dayOfYear) * 24 + t.hour.toNat) * 60 + t.min.toNat) * 60 + t.sec.toNat

theorem monthSum_step : ∀ leap : Bool, ∀ m < 13, ∀ m' < m, 0 < m' →
    (monthSum (if leap then 12 else 0) (m' - 1)).toNat + (monthLen (if leap then 12 else 0) (m' - 1)).toNat ≤
      (monthSum (if leap then 12 else 0) (m - 1)).toNat := by
  decide +kernel

theorem monthSum_last : ∀ leap : Bool, ∀ m < 13, 0 < m →
    (monthSum (if leap then 12 else 0) (m - 1)).toNat + (monthLen (if leap then 12 else 0) (m - 1)).toNat ≤
      if leap then 366 else 365 := by
  decide +kernel

variable {t t' : BdfeTime}

theorem BdfeTime.Valid.dayOfYear_lt (h : t.Valid) : t.dayOfYear < if t.year.toNat % 4 = 0 then 366 else 365 := by
  obtain ⟨⟨hlo, hhi⟩, ⟨hday, hlen⟩, -⟩ := h
  have hsum := monthSum_last (t.year.toNat % 4 = 0) t.month.toNat (by omega) hlo
  rw [le_def] at hlen
  unfold dayOfYear leapBase at *
  simp only [decide_eq_true_eq] at hsum
  omega

theorem BdfeTime.Valid.day_unique (h : t.Valid) (h' : t'.Valid) (hyear : t.year = t'.year)
    (hdoy : t.dayOfYear = t'.dayOfYear) : t.month = t'.month ∧ t.day = t'.day := by
  obtain ⟨⟨hlo, hhi⟩, ⟨hday, hlen⟩, -⟩ := h
  obtain ⟨⟨hlo', hhi'⟩, ⟨hday', hlen'⟩, -⟩ := h'
  have hstep := monthSum_step (t'.year.toNat % 4 = 0)
  rw [le_def] at hlen hlen'
  unfold dayOfYear leapBase at *
  rw [hyear] at hlen hdoy
  simp only [decide_eq_true_eq] at hstep
  have hmonth : t.month.toNat = t'.month.toNat := by
    rcases Nat.lt_trichotomy t.month.toNat t'.month.toNat with hlt | heq | hgt
    · have := hstep _ (by omega) _ hlt hlo
      omega
    · exact heq
    · have := hstep _ (by omega) _ hgt hlo'
      omega
  rw [hmonth] at hdoy
  exact ⟨eq_of_toNat_eq hmonth, eq_of_toNat_eq (by omega)⟩

theorem BdfeTime.Valid.eq_of_seconds (h : t.Valid) (h' : t'.Valid) (hyear : 2001 ≤ t.year.toNat)
    (hyear' : 2001 ≤ t'.year.toNat) (hseconds : t.seconds = t'.seconds) : t = t' := by
  have hlt := h.dayOfYear_lt
  have hlt' := h'.dayOfYear_lt
  obtain ⟨-, -, hhour, hmin, hsec⟩ := id h
  obtain ⟨-, -, hhour', hmin', hsec'⟩ := id h'
  unfold seconds at hseconds
  dsimp only at hseconds
  have hdays : (t.year.toNat - 2001) * 365 + (t.year.toNat - 2001) / 4 + t.dayOfYear =
      (t'.year.toNat - 2001) * 365 + (t'.year.toNat - 2001) / 4 + t'.dayOfYear := by omega
  have hy : t.year.toNat = t'.year.toNat := by split_ifs at hlt hlt' <;> omega
  obtain ⟨hmonth, hday⟩ := h.day_unique h' (eq_of_toNat_eq hy) (by rw [hy] at hdays; omega)
  have hs : t.sec = t'.sec := eq_of_toNat_eq (by omega)
  have hm : t.min = t'.min := eq_of_toNat_eq (by omega)
  have hh : t.hour = t'.hour := eq_of_toNat_eq (by omega)
  cases t
  cases t'
  simp only [BdfeTime.mk.injEq]
  exact ⟨hs, hm, hh, hday, hmonth, eq_of_toNat_eq hy⟩

theorem fsCalculateTime_seconds (h : t.Valid) (hyear : 2001 ≤ t.year.toNat) :
    fsCalculateTime t = BitVec.ofNat 32 t.seconds := by
  rw [@fsCalculateTime_eq t (t.year.toNat - 2001) (by omega) h.day.1, Nat.add_sub_cancel' hyear, Nat.add_assoc]
  rfl

theorem fsTime2bdfe_valid :
    ∃ t, fsTime2bdfe secs = some t ∧ t.Valid ∧ 2001 ≤ t.year.toNat ∧ t.seconds = secs.toNat := by
  obtain ⟨t, years, doy, ht, hyear, -, hdays, -, ⟨hlo, hhi, hday, hlen, hsum⟩, hhour, hmin, hsec⟩ :=
    fsTime2bdfe_spec secs
  rw [← hyear] at hlen hsum
  refine ⟨t, ht, ⟨⟨hlo, hhi⟩, ⟨hday, hlen⟩, by omega, by omega, by omega⟩, by omega, ?_⟩
  unfold BdfeTime.seconds BdfeTime.dayOfYear leapBase
  dsimp only
  rw [hyear] at hsum ⊢
  rw [Nat.add_sub_cancel_left]
  omega

/-- **Seconds and dates.** Every second is a date and a time, and back. -/
theorem fsTime2bdfe_round_trip :
    (∀ secs, ∃ t, fsTime2bdfe secs = some t ∧ t.Valid ∧ fsCalculateTime t = secs) ∧
      ∀ t : BdfeTime, t.Valid → 2001 ≤ t.year.toNat → t.seconds < 2 ^ 32 → fsTime2bdfe (fsCalculateTime t) = some t := by
  refine ⟨fun secs => ?_, fun t h hyear hlt => ?_⟩
  · obtain ⟨t, ht, h, hyear, hseconds⟩ := fsTime2bdfe_valid secs
    refine ⟨t, ht, h, ?_⟩
    rw [fsCalculateTime_seconds h hyear, hseconds, ofNat_toNat, setWidth_eq]
  · rw [fsCalculateTime_seconds h hyear]
    obtain ⟨t', ht', h', hyear', hseconds⟩ := fsTime2bdfe_valid (BitVec.ofNat 32 t.seconds)
    rw [toNat_ofNat, Nat.mod_eq_of_lt hlt] at hseconds
    rw [ht', h'.eq_of_seconds h hyear' hyear hseconds]

def leapDay2104 : BdfeTime := { sec := 59, min := 59, hour := 23, day := 29, month := 2, year := 2104 }

theorem fsTime2bdfe_round_trip_leap :
    leapDay2104.seconds < 2 ^ 32 ∧ fsTime2bdfe (fsCalculateTime leapDay2104) = some leapDay2104 :=
  ⟨by decide +kernel, fsTime2bdfe_round_trip.2 _ ⟨by decide, by decide, by decide, by decide, by decide⟩ (by decide)
    (by decide +kernel)⟩

theorem fsCalculateTime_fsTime2bdfe : ∃ t, fsTime2bdfe secs = some t ∧ fsCalculateTime t = secs := by
  obtain ⟨t, ht, h, hyear, hseconds⟩ := fsTime2bdfe_valid secs
  exact ⟨t, ht, by rw [fsCalculateTime_seconds h hyear, hseconds, ofNat_toNat, setWidth_eq]⟩

theorem fsTime2bdfe_injective : Function.Injective fsTime2bdfe := by
  intro a b h
  obtain ⟨t, hta, hca⟩ := fsCalculateTime_fsTime2bdfe a
  obtain ⟨t', htb, hcb⟩ := fsCalculateTime_fsTime2bdfe b
  rw [hta, htb, Option.some.injEq] at h
  rw [← hca, ← hcb, h]

end Kolibri.Calendar
