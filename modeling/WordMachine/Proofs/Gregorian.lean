/-
WordMachine/Proofs/Gregorian.lean

Day numbers and the Gregorian calendar.

The calendar itself is given by the lengths of its months: twelve to a year, and one day
more in February when the year is `Leap`.  They say which dates there are (`Date.Valid`),
how many days lie between the beginning of 1970 and a date (`Date.dayCount`) and which
date is the next one (`Date.next`).

A `MarchDay` is a day as the conversion reckons it, by era, year, month and day from zero
on, in years that begin with March.  Its number and its date are both read off it, and
the conversion takes the one to the other (`ofUnixDayBy_eq`), as long as differences that
are not negative are taken as they are: no other one comes up.  The day after a
`MarchDay` is a `MarchDay` again, with the next number and the next date (`exists_succ`),
so every number has one, and the dates of the numbers follow each other.  What the next
date keeps then holds of all of them by induction.

Main result: `days_are_dates`.
-/
import WordMachine.Calendar
import Mathlib.Algebra.BigOperators.Intervals
import Mathlib.Data.Nat.PSub
import Mathlib.Tactic.IntervalCases

namespace WordMachine

/-! ### The calendar -/

/-- A year with a leap day: every fourth, but of the full centuries only every fourth. -/
def Leap (year : Nat) : Prop := 4 ∣ year ∧ (¬100 ∣ year ∨ 400 ∣ year)

instance (year : Nat) : Decidable (Leap year) :=
  inferInstanceAs (Decidable (4 ∣ year ∧ (¬100 ∣ year ∨ 400 ∣ year)))

/-- The number of days of a month. -/
def monthLength (year month : Nat) : Nat :=
  if month = 2 then if Leap year then 29 else 28
  else if month = 4 ∨ month = 6 ∨ month = 9 ∨ month = 11 then 30
  else 31

/-- The number of days of a year. -/
def yearLength (year : Nat) : Nat := if Leap year then 366 else 365

/-- The days from the beginning of 1970 to the beginning of a year. -/
def daysToYear (year : Nat) : Nat := ∑ y ∈ Finset.Ico 1970 year, yearLength y

/-- The days from the beginning of a year to the beginning of a month. -/
def daysToMonth (year month : Nat) : Nat := ∑ m ∈ Finset.Ico 1 month, monthLength year m

theorem daysToYear_succ {year : Nat} (h : 1970 ≤ year) :
    daysToYear (year + 1) = daysToYear year + yearLength year :=
  Finset.sum_Ico_succ_top h yearLength

theorem daysToMonth_succ (year : Nat) {month : Nat} (h : 1 ≤ month) :
    daysToMonth year (month + 1) = daysToMonth year month + monthLength year month :=
  Finset.sum_Ico_succ_top h (monthLength year)

/-- The months of a year add up to the year. -/
theorem daysToMonth_thirteen (year : Nat) : daysToMonth year 13 = yearLength year := by
  by_cases h : Leap year
  · simp [daysToMonth, Finset.sum_Ico_succ_top, monthLength, yearLength, h]
  · simp [daysToMonth, Finset.sum_Ico_succ_top, monthLength, yearLength, h]

theorem one_le_monthLength (year month : Nat) : 1 ≤ monthLength year month := by
  unfold monthLength
  split_ifs <;> decide

theorem monthLength_le (year month : Nat) : monthLength year month ≤ 31 := by
  unfold monthLength
  split_ifs <;> decide

namespace Date

/-- A date that is in the calendar. -/
structure Valid (t : Date) : Prop where
  month_pos : 1 ≤ t.month
  month_le : t.month ≤ 12
  day_pos : 1 ≤ t.day
  day_le : t.day ≤ monthLength t.year t.month

/-- The days from the first of January 1970 to a date: full years, full months of the last
year, and full days. -/
def dayCount (t : Date) : Nat :=
  daysToYear t.year + daysToMonth t.year t.month + (t.day - 1)

/-- The date after a date. -/
def next (t : Date) : Date :=
  if t.day < monthLength t.year t.month then { t with day := t.day + 1 }
  else if t.month < 12 then ⟨t.year, t.month + 1, 1⟩
  else ⟨t.year + 1, 1, 1⟩

/-- The order of dates: by year, then by month, then by day. -/
def Before (t u : Date) : Prop :=
  t.year < u.year ∨
    t.year = u.year ∧ (t.month < u.month ∨ t.month = u.month ∧ t.day < u.day)

theorem Before.trans {t u v : Date} (htu : t.Before u) (huv : u.Before v) : t.Before v := by
  unfold Before at *
  omega

theorem before_next (t : Date) : t.Before t.next := by
  unfold next
  split
  · exact .inr ⟨rfl, .inr ⟨rfl, Nat.lt_add_one t.day⟩⟩
  · split
    · exact .inr ⟨rfl, .inl (Nat.lt_add_one t.month)⟩
    · exact .inl (Nat.lt_add_one t.year)

theorem Valid.next {t : Date} (h : t.Valid) : t.next.Valid := by
  unfold Date.next
  split
  · next hday => exact ⟨h.month_pos, h.month_le, Nat.succ_pos _, hday⟩
  · split
    · next hmonth => exact ⟨Nat.succ_pos _, hmonth, Nat.le_refl 1, one_le_monthLength _ _⟩
    · exact ⟨Nat.le_refl 1, Nat.succ_pos 11, Nat.le_refl 1, one_le_monthLength _ _⟩

/-- The next date is one day later. -/
theorem Valid.dayCount_next {t : Date} (h : t.Valid) (hyear : 1970 ≤ t.year) :
    t.next.dayCount = t.dayCount + 1 := by
  have hday := h.day_pos
  unfold Date.next
  split
  · show daysToYear t.year + daysToMonth t.year t.month + t.day = t.dayCount + 1
    unfold dayCount
    omega
  · next hover =>
    have hend : t.day = monthLength t.year t.month :=
      Nat.le_antisymm h.day_le (Nat.not_lt.mp hover)
    have hmonth := daysToMonth_succ t.year h.month_pos
    split
    · show daysToYear t.year + daysToMonth t.year (t.month + 1) + 0 = t.dayCount + 1
      unfold dayCount
      omega
    · next hdecember =>
      have hlast : t.month + 1 = 13 := by
        have hle := h.month_le
        omega
      rw [hlast, daysToMonth_thirteen] at hmonth
      show daysToYear (t.year + 1) + 0 + 0 = t.dayCount + 1
      rw [daysToYear_succ hyear]
      unfold dayCount
      omega

theorem year_le_next (t : Date) : t.year ≤ t.next.year := by
  rcases before_next t with hlt | ⟨heq, _⟩
  · exact Nat.le_of_lt hlt
  · exact Nat.le_of_eq heq

end Date

/-! ### Years that begin with March -/

/-- The days of an era before one of its years, which has its leap day at its end. -/
def yearStart (year : Nat) : Nat := 365 * year + year / 4 - year / 100

/-- The days of a year before one of its months, counted from March as zero. -/
def monthStart (month : Nat) : Nat := (153 * month + 2) / 5

/-- The month of the calendar for a month counted from March as zero. -/
def calendarMonth (month : Nat) : Nat := if month < 10 then month + 3 else month - 9

/-- The days of an era without the leap days, as far as they are over. -/
def commonDays (day : Nat) : Nat := day - day / 1460 + day / 36524 - day / 146096

theorem commonDays_mono {a b : Nat} (h : a ≤ b) : commonDays a ≤ commonDays b := by
  have hcenturies : ∀ d : Nat, d / 146096 = d / 36524 / 4 := fun d =>
    (Nat.div_div_eq_div_mul d 36524 4).symm
  have hfours : a - a / 1460 ≤ b - b / 1460 := by omega
  have hquarter : a / 36524 ≤ b / 36524 := Nat.div_le_div_right h
  unfold commonDays
  rw [hcenturies, hcenturies]
  omega

/-- The first and the last day of a year fall into that year. -/
theorem commonDays_ends : ∀ year < 400, commonDays (yearStart year) / 365 = year ∧
    commonDays (yearStart year + if Leap (year + 1) then 365 else 364) / 365 = year := by
  decide +kernel

/-- Up to February, months have the lengths of the calendar in every year. -/
theorem monthStart_succ (year : Nat) {month : Nat} (h : month < 11) :
    monthStart (month + 1) = monthStart month + monthLength year (calendarMonth month) := by
  interval_cases month <;> rfl

/-- A day by era, year, month and day, all counted from zero, of years that begin with
March. -/
structure MarchDay where
  era : Nat
  year : Nat
  month : Nat
  day : Nat
  year_lt : year < 400
  month_lt : month < 12
  day_lt : day < monthLength (400 * era + year + if month < 10 then 0 else 1)
    (calendarMonth month)

/-- Within a year of the calendar, months follow each other in both counts. -/
theorem calendarMonth_succ {month : Nat} (h : month ≠ 9) :
    calendarMonth (month + 1) = calendarMonth month + 1 := by
  unfold calendarMonth
  split <;> split <;> omega

theorem calendarMonth_lt {month : Nat} (h : month < 11) (hne : month ≠ 9) :
    calendarMonth month < 12 := by
  unfold calendarMonth
  split <;> omega

namespace MarchDay

/-- The day in the calendar, where the last two months belong to the next year. -/
def date (r : MarchDay) : Date :=
  { year := 400 * r.era + r.year + if r.month < 10 then 0 else 1
    month := calendarMonth r.month
    day := r.day + 1 }

/-- The day of the year. -/
def dayOfYear (r : MarchDay) : Nat := monthStart r.month + r.day

/-- The day of the era. -/
def dayOfEra (r : MarchDay) : Nat := yearStart r.year + r.dayOfYear

/-- The day counted from the first of March of the year zero. -/
def number (r : MarchDay) : Nat := Date.eraDays * r.era + r.dayOfEra

variable (r : MarchDay)

theorem february_length (hmonth : r.month = 11) :
    monthLength r.date.year (calendarMonth r.month) = if Leap (r.year + 1) then 29 else 28 := by
  have hyear : r.date.year = 400 * r.era + r.year + 1 := by
    show (400 * r.era + r.year + if r.month < 10 then 0 else 1) = _
    rw [hmonth]
    rfl
  have hleap : Leap (400 * r.era + r.year + 1) ↔ Leap (r.year + 1) := by
    unfold Leap
    omega
  rw [hyear, hmonth]
  show (if Leap (400 * r.era + r.year + 1) then 29 else 28) = _
  simp only [hleap]

/-- The leap day is the last day of its year. -/
theorem dayOfYear_le : r.dayOfYear ≤ if Leap (r.year + 1) then 365 else 364 := by
  have hday : r.day < monthLength r.date.year (calendarMonth r.month) := r.day_lt
  have hmonth := r.month_lt
  unfold dayOfYear
  by_cases hlast : r.month = 11
  · rw [r.february_length hlast] at hday
    rw [hlast, show monthStart 11 = 337 from rfl]
    split at hday
    · next hleap =>
      rw [if_pos hleap]
      omega
    · next hleap =>
      rw [if_neg hleap]
      omega
  · have hnext := monthStart_succ r.date.year (show r.month < 11 by omega)
    have hbefore : monthStart (r.month + 1) ≤ 337 := by
      unfold monthStart
      omega
    have hle : 364 ≤ if Leap (r.year + 1) then 365 else 364 := by
      split <;> decide
    omega

theorem dayOfYear_lt_monthStart : r.dayOfYear < monthStart (r.month + 1) := by
  have hday := r.day_lt
  have hmonth := r.month_lt
  by_cases hlast : r.month = 11
  · have hle := r.dayOfYear_le
    rw [hlast]
    show r.dayOfYear < 367
    split at hle <;> omega
  · rw [monthStart_succ _ (show r.month < 11 by omega)]
    exact Nat.add_lt_add_left hday _

theorem commonDays_dayOfEra : commonDays r.dayOfEra / 365 = r.year := by
  -- only the two ends of a year are computed, and its other days lie between them
  obtain ⟨hfirst, hlast⟩ := commonDays_ends r.year r.year_lt
  apply Nat.le_antisymm
  · have hle : r.dayOfEra ≤ _ := Nat.add_le_add_left r.dayOfYear_le (yearStart r.year)
    exact (Nat.div_le_div_right (commonDays_mono hle)).trans_eq hlast
  · have hle : yearStart r.year ≤ r.dayOfEra := Nat.le_add_right _ _
    exact hfirst.symm.trans_le (Nat.div_le_div_right (commonDays_mono hle))

theorem month_eq : (5 * r.dayOfYear + 2) / 153 = r.month := by
  have hlow : monthStart r.month ≤ r.dayOfYear := Nat.le_add_right _ _
  have hhigh := r.dayOfYear_lt_monthStart
  unfold monthStart at hlow hhigh
  omega

theorem dayOfEra_lt : r.dayOfEra < Date.eraDays := by
  have hyear := r.year_lt
  have hday := r.dayOfYear_le
  show yearStart r.year + r.dayOfYear < 146097
  have hstart : yearStart r.year ≤ 145731 := by
    unfold yearStart
    omega
  split at hday <;> omega

/-! ### The conversion -/

variable {m : Type → Type} [Monad m] [LawfulMonad m] {sub : Nat → Nat → m Nat}

/-- The day of an era is taken apart again, by differences none of which is negative. -/
theorem ofDayOfEraBy_eq (hsub : ∀ a b, b ≤ a → sub a b = pure (a - b)) :
    Date.ofDayOfEraBy sub r.dayOfEra =
      pure (r.year, calendarMonth r.month, r.day + 1) := by
  have hfours : r.dayOfEra / 1460 ≤ r.dayOfEra := Nat.div_le_self _ _
  have hcenturies : r.dayOfEra / 146096 ≤ r.dayOfEra - r.dayOfEra / 1460 + r.dayOfEra / 36524 :=
    Nat.le_add_left_of_le (Nat.div_le_div_left (by decide) (by decide))
  have hyearOfEra : (r.dayOfEra - r.dayOfEra / 1460 + r.dayOfEra / 36524
      - r.dayOfEra / 146096) / 365 = r.year := r.commonDays_dayOfEra
  have hleap : r.year / 100 ≤ 365 * r.year + r.year / 4 := by omega
  have hyear : 365 * r.year + r.year / 4 - r.year / 100 ≤ r.dayOfEra := Nat.le_add_right _ _
  have hdayOfYear : r.dayOfEra - (365 * r.year + r.year / 4 - r.year / 100) = r.dayOfYear :=
    Nat.add_sub_cancel_left _ _
  have hmonth : (153 * r.month + 2) / 5 ≤ r.dayOfYear := Nat.le_add_right _ _
  have hday : r.dayOfYear - (153 * r.month + 2) / 5 = r.day := Nat.add_sub_cancel_left _ _
  unfold Date.ofDayOfEraBy
  rw [hsub _ _ hfours, pure_bind, hsub _ _ hcenturies, pure_bind]
  simp only [hyearOfEra]
  rw [hsub _ _ hleap, pure_bind, hsub _ _ hyear, pure_bind, hdayOfYear]
  simp only [r.month_eq]
  rw [hsub _ _ hmonth, pure_bind, hday]
  unfold calendarMonth
  by_cases hwinter : r.month < 10
  · rw [if_pos hwinter, if_pos hwinter, pure_bind]
  · rw [if_neg hwinter, if_neg hwinter, hsub _ _ (by omega), pure_bind]

/-- January and February are the months that belong to the next year. -/
theorem calendarMonth_le_two_iff : calendarMonth r.month ≤ 2 ↔ ¬r.month < 10 := by
  have hmonth := r.month_lt
  unfold calendarMonth
  split <;> omega

/-- Days are converted to their dates as long as the years have 32 bits. -/
theorem ofUnixDayBy_eq (hsub : ∀ a b, b ≤ a → sub a b = pure (a - b)) {days : Nat}
    (hnumber : r.number = days + Date.unixOrigin) (hyear : r.date.year < Date.yearModulus) :
    Date.ofUnixDayBy sub days = pure r.date := by
  have hdoe := r.dayOfEra_lt
  have hnum : r.number = 146097 * r.era + r.dayOfEra := rfl
  have hdate : r.date.year = 400 * r.era + r.year + if r.month < 10 then 0 else 1 := rfl
  unfold Date.eraDays Date.yearModulus at *
  -- a year of 32 bits keeps the day number far below the sign bit
  have hsigned : Int.bmod (days + Date.unixOrigin) Date.dayModulus = (r.number : Int) := by
    rw [hnumber]
    unfold Date.dayModulus
    exact Int.bmod_eq_of_le (by omega) (by omega)
  have hera : (r.number : Int) / (146097 : Nat) = r.era := by omega
  have hday : ((r.number : Int) % (146097 : Nat)).toNat = r.dayOfEra := by omega
  have hyears : ((r.year + r.era * 400 + if calendarMonth r.month ≤ 2 then 1 else 0 : Int)
      % (4294967296 : Nat)).toNat = r.date.year := by
    simp only [r.calendarMonth_le_two_iff]
    by_cases hwinter : r.month < 10
    · rw [if_pos hwinter] at hdate
      rw [if_neg (not_not.mpr hwinter)]
      omega
    · rw [if_neg hwinter] at hdate
      rw [if_pos hwinter]
      omega
  unfold Date.ofUnixDayBy
  simp only [hsigned]
  unfold Date.eraDays Date.yearModulus
  rw [hday, r.ofDayOfEraBy_eq hsub, pure_bind, hera, hyears]
  rfl

/-! ### One day after the other -/

/-- A year's length from its first of March to the next. -/
theorem yearStart_succ {year : Nat} (h : year < 399) :
    yearStart (year + 1) = yearStart year + 365 + if Leap (year + 1) then 1 else 0 := by
  unfold yearStart
  split
  · next hleap =>
    unfold Leap at hleap
    omega
  · next hleap =>
    unfold Leap at hleap
    omega

/-- After each day comes a day, with the next number and the next date. -/
theorem exists_succ : ∃ r' : MarchDay, r'.number = r.number + 1 ∧ r'.date = r.date.next := by
  by_cases hday : r.day + 1 < monthLength r.date.year r.date.month
  · exact ⟨{ r with day := r.day + 1, day_lt := hday }, rfl, (if_pos hday).symm⟩
  -- the last day of a month: what follows is the first day of another one
  have hlast : r.day + 1 = monthLength r.date.year (calendarMonth r.month) :=
    Nat.le_antisymm r.day_lt (Nat.not_lt.mp hday)
  have hnumber : r.number
      = Date.eraDays * r.era + (yearStart r.year + (monthStart r.month + r.day)) := rfl
  have hnext : r.date.next = if calendarMonth r.month < 12
      then ⟨r.date.year, calendarMonth r.month + 1, 1⟩ else ⟨r.date.year + 1, 1, 1⟩ := if_neg hday
  have hdate : r.date.year = 400 * r.era + r.year + if r.month < 10 then 0 else 1 := rfl
  have hmonths := r.month_lt
  have hyears := r.year_lt
  by_cases hmonth : r.month < 11
  · have hstart := monthStart_succ r.date.year hmonth
    refine ⟨⟨r.era, r.year, r.month + 1, 0, hyears, by omega, one_le_monthLength _ _⟩, ?_, ?_⟩
    · show Date.eraDays * r.era + (yearStart r.year + (monthStart (r.month + 1) + 0)) = _
      omega
    · show (⟨400 * r.era + r.year + if r.month + 1 < 10 then 0 else 1,
        calendarMonth (r.month + 1), 1⟩ : Date) = _
      by_cases hdecember : r.month = 9
      · rw [hnext, hdate, hdecember]
        rfl
      · have hlt : calendarMonth r.month < 12 := calendarMonth_lt hmonth hdecember
        have hsame : r.month + 1 < 10 ↔ r.month < 10 := by omega
        rw [hnext, if_pos hlt, hdate, calendarMonth_succ hdecember]
        simp only [hsame]
  · have hfebruary : r.month = 11 := by omega
    have hlength := r.february_length hfebruary
    have hmarch : r.date.next = ⟨400 * r.era + r.year + 1, 3, 1⟩ := by
      rw [hnext, hdate, hfebruary]
      rfl
    have hzero : yearStart 0 + monthStart 0 = 0 := rfl
    rw [hfebruary, show monthStart 11 = 337 from rfl] at hnumber
    -- after the leap day that ends an era, the next era begins
    by_cases hera : r.year < 399
    · have hstart := yearStart_succ hera
      refine ⟨⟨r.era, r.year + 1, 0, 0, by omega, by decide, one_le_monthLength _ _⟩, ?_, ?_⟩
      · show Date.eraDays * r.era + (yearStart (r.year + 1) + (monthStart 0 + 0)) = _
        by_cases hleap : Leap (r.year + 1)
        · rw [if_pos hleap] at hlength hstart
          omega
        · rw [if_neg hleap] at hlength hstart
          omega
      · rw [hmarch]
        rfl
    · have hyear : r.year = 399 := by omega
      refine ⟨⟨r.era + 1, 0, 0, 0, by decide, by decide, one_le_monthLength _ _⟩, ?_, ?_⟩
      · have hstart : yearStart 399 = 145731 := rfl
        rw [hyear, if_pos (by decide)] at hlength
        rw [hyear] at hnumber
        show Date.eraDays * (r.era + 1) + (yearStart 0 + (monthStart 0 + 0)) = _
        unfold Date.eraDays at *
        omega
      · rw [hmarch, hyear]
        rfl

/-- Every number is that of a day. -/
theorem exists_number (n : Nat) : ∃ r : MarchDay, r.number = n := by
  induction n with
  | zero => exact ⟨⟨0, 0, 0, 0, by decide, by decide, by decide⟩, rfl⟩
  | succ n ih =>
    obtain ⟨r, rfl⟩ := ih
    obtain ⟨r', hnumber, _⟩ := r.exists_succ
    exact ⟨r', hnumber⟩

end MarchDay

/-! ### All days -/

namespace Date

variable {m : Type → Type} [Monad m] [LawfulMonad m] {sub : Nat → Nat → m Nat}
variable {days : Nat}

/-- In the first `10^12` days years have 32 bits. -/
theorem ofUnixDayBy_date (hsub : ∀ a b, b ≤ a → sub a b = pure (a - b))
    (hdays : days ≤ 10 ^ 12 + 1) {r : MarchDay} (hnumber : r.number = days + unixOrigin) :
    ofUnixDayBy sub days = pure r.date := by
  have hyear : r.date.year ≤ 400 * r.era + 400 := by
    have hlt := r.year_lt
    show (400 * r.era + r.year + if r.month < 10 then 0 else 1) ≤ _
    split <;> omega
  have hera : eraDays * r.era ≤ r.number := Nat.le_add_right _ _
  refine r.ofUnixDayBy_eq hsub hnumber ?_
  unfold eraDays unixOrigin yearModulus at *
  omega

theorem ofUnixDay_eq (hdays : days ≤ 10 ^ 12 + 1) {r : MarchDay}
    (hnumber : r.number = days + unixOrigin) : ofUnixDay days = r.date := by
  unfold ofUnixDay
  rw [ofUnixDayBy_date (fun _ _ _ => rfl) hdays hnumber, Id.run_pure]

theorem ofUnixDay_zero : ofUnixDay 0 = ⟨1970, 1, 1⟩ := by decide

/-- The dates of days follow each other as in the calendar. -/
theorem ofUnixDay_succ (hdays : days ≤ 10 ^ 12) :
    ofUnixDay (days + 1) = (ofUnixDay days).next := by
  obtain ⟨r, hnumber⟩ := MarchDay.exists_number (days + unixOrigin)
  obtain ⟨r', hnumber', hdate⟩ := r.exists_succ
  have hnext : r'.number = days + 1 + unixOrigin := by omega
  rw [ofUnixDay_eq (by omega) hnumber, ofUnixDay_eq (by omega) hnext, hdate]

/-- No difference is below zero. -/
theorem ofUnixDayBy_psub (hdays : days ≤ 10 ^ 12) :
    ofUnixDayBy Nat.psub days = some (ofUnixDay days) := by
  obtain ⟨r, hnumber⟩ := MarchDay.exists_number (days + unixOrigin)
  rw [ofUnixDay_eq (by omega) hnumber]
  exact ofUnixDayBy_date (fun _ _ h => Nat.psub_eq_sub h) (by omega) hnumber

/-- What the first of January 1970 has and the next date keeps. -/
theorem ofUnixDay_inCalendar (hdays : days ≤ 10 ^ 12 + 1) :
    (ofUnixDay days).Valid ∧ 1970 ≤ (ofUnixDay days).year ∧ (ofUnixDay days).dayCount = days := by
  induction days with
  | zero =>
    rw [ofUnixDay_zero]
    exact ⟨⟨by decide, by decide, by decide, by decide⟩, Nat.le_refl 1970, rfl⟩
  | succ days ih =>
    obtain ⟨hvalid, hyear, hcount⟩ := ih (by omega)
    rw [ofUnixDay_succ (by omega)]
    exact ⟨hvalid.next, hyear.trans (year_le_next _),
      (hvalid.dayCount_next hyear).trans (congrArg (· + 1) hcount)⟩

/-- Later days have later dates. -/
theorem ofUnixDay_before {later : Nat} (hlt : days < later) (hlater : later ≤ 10 ^ 12 + 1) :
    (ofUnixDay days).Before (ofUnixDay later) := by
  induction later with
  | zero => exact absurd hlt (Nat.not_lt_zero days)
  | succ later ih =>
    have hnext : (ofUnixDay later).Before (ofUnixDay (later + 1)) := by
      rw [ofUnixDay_succ (by omega)]
      exact before_next _
    rcases Nat.lt_succ_iff_lt_or_eq.mp hlt with hearlier | rfl
    · exact (ih hearlier (by omega)).trans hnext
    · exact hnext

/-- **Days are dates.**  Each of the first `10^12` days from the beginning of 1970 on has a
date of the calendar, with as many days before it as its number says.  The next day has the
next date, later days have later dates, and no two days have the same.  None of the
unsigned differences that are taken on the way is below zero. -/
theorem days_are_dates (hdays : days ≤ 10 ^ 12) :
    ((ofUnixDay days).Valid ∧ 1970 ≤ (ofUnixDay days).year ∧
      (ofUnixDay days).dayCount = days) ∧
    ofUnixDay (days + 1) = (ofUnixDay days).next ∧
    (∀ later, days < later → later ≤ 10 ^ 12 → (ofUnixDay days).Before (ofUnixDay later)) ∧
    (∀ other, other ≤ 10 ^ 12 → ofUnixDay other = ofUnixDay days → other = days) ∧
    ofUnixDayBy Nat.psub days = some (ofUnixDay days) := by
  have hcalendar := ofUnixDay_inCalendar (Nat.le_succ_of_le hdays)
  refine ⟨hcalendar, ofUnixDay_succ hdays,
    fun later hlt hlater => ofUnixDay_before hlt (Nat.le_succ_of_le hlater), ?_,
    ofUnixDayBy_psub hdays⟩
  intro other hother hsame
  obtain ⟨_, _, hcount⟩ := ofUnixDay_inCalendar (Nat.le_succ_of_le hother)
  rw [← hcount, hsame]
  exact hcalendar.2.2

/-- The last of February in a full century without a leap day, and a day in a year of ten
digits. -/
theorem days_are_dates_century :
    47540 ≤ 10 ^ 12 ∧
      (ofUnixDay 47540 = ⟨2100, 2, 28⟩ ∧ ofUnixDayBy Nat.psub 47540 = some ⟨2100, 2, 28⟩) ∧
      (Valid ⟨2100, 2, 28⟩ ∧ dayCount ⟨2100, 2, 28⟩ = 47540) ∧
      ofUnixDay 47541 = ⟨2100, 3, 1⟩ ∧
      (47540 < 10 ^ 12 ∧ ofUnixDay (10 ^ 12) = ⟨2737908976, 12, 27⟩ ∧
        Before ⟨2100, 2, 28⟩ ⟨2737908976, 12, 27⟩) ∧
      Valid ⟨2737908976, 12, 27⟩ ∧ dayCount ⟨2737908976, 12, 27⟩ = 10 ^ 12 := by
  have hle : 47540 ≤ 10 ^ 12 := by decide
  have hlt : 47540 < 10 ^ 12 := by decide
  have hdate : ofUnixDay 47540 = ⟨2100, 2, 28⟩ := by decide
  have hlast : ofUnixDay (10 ^ 12) = ⟨2737908976, 12, 27⟩ := by decide
  obtain ⟨⟨hvalid, _, hcount⟩, hnext, hlater, _, hchecked⟩ := days_are_dates hle
  obtain ⟨⟨hvalid', _, hcount'⟩, _⟩ := days_are_dates (Nat.le_refl (10 ^ 12))
  have hbefore := hlater (10 ^ 12) hlt (Nat.le_refl _)
  rw [hdate] at hvalid hcount hnext hbefore hchecked
  rw [hlast] at hvalid' hcount' hbefore
  exact ⟨hle, ⟨hdate, hchecked⟩, ⟨hvalid, hcount⟩, hnext, ⟨hlt, hlast, hbefore⟩, hvalid', hcount'⟩

end Date

end WordMachine
