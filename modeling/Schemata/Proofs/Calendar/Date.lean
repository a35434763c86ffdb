import Schemata.Calendar.Date

/-! Days and dates: every number of days is that of a date of the calendar. An era has 146097 days; its
years are told apart by their first days, and the months of a year by theirs. -/
namespace Schemata.Calendar

/-! ### Years of an era -/

/-- The year of an era that a day of the era lies in, counted from the first of March. -/
def yearOfDay (day : Nat) : Nat := (day - day / 1460 + day / 36524 - day / 146096) / 365

/-- The day of the era that a year begins with. -/
def firstDay (year : Nat) : Nat := 365 * year + year / 4 - year / 100 + year / 400

theorem yearOfDay_le_succ (day : Nat) : yearOfDay day ≤ yearOfDay (day + 1) := by
  unfold yearOfDay
  refine Nat.div_le_div_right ?_
  omega

theorem yearOfDay_mono {a b : Nat} (h : a ≤ b) : yearOfDay a ≤ yearOfDay b := by
  induction h with
  | refl => exact Nat.le_refl _
  | step _ ih => exact Nat.le_trans ih (yearOfDay_le_succ _)

theorem yearOfDay_firstDay : ∀ year < 400, yearOfDay (firstDay year) = year := by decide +kernel

theorem yearOfDay_lastDay : ∀ year < 400, yearOfDay (firstDay (year + 1) - 1) = year := by
  decide +kernel

theorem yearOfDay_lt {day : Nat} (h : day < 146097) : yearOfDay day < 400 := by
  have hle : yearOfDay day ≤ yearOfDay 146096 := yearOfDay_mono (by omega)
  have hlast : yearOfDay 146096 = 399 := by decide
  omega

/-- A day lies between the first days of its year and of the next. -/
theorem firstDay_le {day : Nat} (h : day < 146097) : firstDay (yearOfDay day) ≤ day := by
  have hy := yearOfDay_lt h
  refine Nat.le_of_not_lt fun hlt => ?_
  cases hyear : yearOfDay day with
  | zero => simp [hyear, firstDay] at hlt
  | succ year =>
    rw [hyear] at hlt hy
    have hle : yearOfDay day ≤ yearOfDay (firstDay (year + 1) - 1) := yearOfDay_mono (by omega)
    rw [yearOfDay_lastDay year (by omega)] at hle
    omega

theorem lt_firstDay {day : Nat} (h : day < 146097) : day < firstDay (yearOfDay day + 1) := by
  have hy := yearOfDay_lt h
  refine Nat.lt_of_not_le fun hle => ?_
  by_cases hlast : yearOfDay day + 1 < 400
  · have hmono := yearOfDay_mono hle
    rw [yearOfDay_firstDay _ hlast] at hmono
    omega
  · have hlast' : yearOfDay day + 1 = 400 := by omega
    have hend : firstDay 400 = 146097 := by decide
    rw [hlast', hend] at hle
    omega

/-! ### Days of a year -/

/-- The months before that of a day of a year, from March on. -/
def monthOfDay (day : Nat) : Nat := (5 * day + 2) / 153

/-- The day of the year that a month begins with. -/
def firstOfMonth (month : Nat) : Nat := (153 * month + 2) / 5

theorem monthOfDay_le {day : Nat} (h : day ≤ 365) : monthOfDay day ≤ 11 := by
  unfold monthOfDay
  omega

theorem firstOfMonth_le (day : Nat) : firstOfMonth (monthOfDay day) ≤ day := by
  unfold firstOfMonth monthOfDay
  omega

theorem lt_firstOfMonth (day : Nat) : day < firstOfMonth (monthOfDay day + 1) := by
  unfold firstOfMonth monthOfDay
  omega

/-! ### Dates -/

/-- The month and the day are those of the calendar. -/
structure Date.Valid (d : Date) : Prop where
  month : 1 ≤ d.month ∧ d.month ≤ 12
  day : 1 ≤ d.day ∧ d.day ≤ daysInMonth d.year d.month

theorem daysInMonth_le (year : Int) (month : Nat) : daysInMonth year month ≤ 31 := by
  unfold daysInMonth
  repeat' split
  all_goals omega

theorem Date.Valid.day_le {d : Date} (h : d.Valid) : d.day ≤ 31 := Nat.le_trans h.day.2 (daysInMonth_le _ _)

/-- What a number of days is made of: the era, the year of the era, the month from March on, and the day
of the month from nought on. -/
structure Parts (days : Int) (era : Int) (year month day : Nat) : Prop where
  days_eq : days = era * 146097 + (firstDay year + firstOfMonth month + day : Nat) - 719468
  year_lt : year < 400
  month_le : month ≤ 11
  day_lt : firstOfMonth month + day < firstOfMonth (month + 1)
  inYear : firstOfMonth month + day + firstDay year < firstDay (year + 1)

/-- The date that parts stand for. -/
def dateOf (era : Int) (year month day : Nat) : Date :=
  ⟨era * 400 + year + (if month < 10 then 0 else 1), if month < 10 then month + 3 else month - 9,
    day + 1⟩

theorem exists_parts (days : Int) :
    ∃ era year month day, Parts days era year month day ∧
      Date.ofDays days = dateOf era year month day := by
  have hday : ((days + 719468) % 146097).toNat < 146097 := by omega
  generalize hdoe : ((days + 719468) % 146097).toNat = dayOfEra at hday
  have hle := firstDay_le hday
  have hlt := lt_firstDay hday
  have hy := yearOfDay_lt hday
  generalize hyoe : yearOfDay dayOfEra = year at hle hlt hy
  have hlen : firstDay (year + 1) ≤ firstDay year + 366 := by unfold firstDay; omega
  have hm : monthOfDay (dayOfEra - firstDay year) ≤ 11 := monthOfDay_le (by omega)
  have hfirst := firstOfMonth_le (dayOfEra - firstDay year)
  have hnext := lt_firstOfMonth (dayOfEra - firstDay year)
  generalize hmonth : monthOfDay (dayOfEra - firstDay year) = month at hm hfirst hnext
  refine ⟨(days + 719468) / 146097, year, month, dayOfEra - firstDay year - firstOfMonth month,
    ⟨by omega, hy, hm, by omega, by omega⟩, ?_⟩
  simp only [yearOfDay] at hyoe
  have h400 : year / 400 = 0 := by omega
  simp only [monthOfDay, firstDay, h400, Nat.add_zero] at hmonth
  simp only [Date.ofDays, hdoe, hyoe, hmonth, dateOf, firstDay, firstOfMonth, h400, Nat.add_zero]
  by_cases h10 : month < 10
  · simp [h10]
  · have h2 : month - 9 ≤ 2 := by omega
    simp [h10, h2]

/-- All months but February are as long as they are from one first day to the next. -/
theorem daysInMonth_eq (year : Int) {month : Nat} (h : month < 11) :
    daysInMonth year (if month < 10 then month + 3 else month - 9) =
      firstOfMonth (month + 1) - firstOfMonth month := by
  have hcases : month = 0 ∨ month = 1 ∨ month = 2 ∨ month = 3 ∨ month = 4 ∨ month = 5 ∨ month = 6 ∨
    month = 7 ∨ month = 8 ∨ month = 9 ∨ month = 10 := by omega
  rcases hcases with h | h | h | h | h | h | h | h | h | h | h <;> subst h <;> rfl

/-- A year that ends with a leap day is one before a leap year. -/
theorem lt_daysInMonth_february (era : Int) {year day : Nat} (hy : year < 400)
    (h : 337 + day + firstDay year < firstDay (year + 1)) :
    day < daysInMonth (era * 400 + year + 1) 2 := by
  unfold firstDay at h
  cases hleap : isLeap (era * 400 + year + 1) with
  | true =>
    have hlen : daysInMonth (era * 400 + year + 1) 2 = 29 := by simp [daysInMonth, hleap]
    omega
  | false =>
    have hlen : daysInMonth (era * 400 + year + 1) 2 = 28 := by simp [daysInMonth, hleap]
    simp [isLeap] at hleap
    omega

namespace Parts
variable {days era : Int} {year month day : Nat}

theorem valid (h : Parts days era year month day) : (dateOf era year month day).Valid where
  month := by
    have hm := h.month_le
    simp only [dateOf]
    split <;> omega
  day := by
    refine ⟨Nat.le_add_left _ _, ?_⟩
    by_cases hm : month < 11
    · have hday := h.day_lt
      simp only [dateOf, daysInMonth_eq _ hm]
      omega
    · have hm : month = 11 := by have := h.month_le; omega
      have hyear := h.inYear
      subst hm
      exact lt_daysInMonth_february era h.year_lt hyear

theorem toDays_eq (h : Parts days era year month day) : (dateOf era year month day).toDays = days := by
  obtain ⟨hdays, hy, hm, -, -⟩ := h
  have h400 : year / 400 = 0 := by omega
  simp only [firstDay, firstOfMonth, h400, Nat.add_zero] at hdays
  by_cases h10 : month < 10
  · have hmonth : (month + 3 + 9) % 12 = month := by omega
    have hera : (era * 400 + year + 0) / 400 = era := by omega
    have hyear : ((era * 400 + year + 0) % 400).toNat = year := by omega
    have h2 : ¬ month + 3 ≤ 2 := by omega
    simp only [Date.toDays, dateOf, h10, if_true, h2, if_false, hmonth, hera, hyear]
    omega
  · have hmonth : (month - 9 + 9) % 12 = month := by omega
    have hera : (era * 400 + year + 1 - 1) / 400 = era := by omega
    have hyear : ((era * 400 + year + 1 - 1) % 400).toNat = year := by omega
    have h2 : month - 9 ≤ 2 := by omega
    simp only [Date.toDays, dateOf, h10, if_false, h2, if_true, hmonth, hera, hyear]
    omega

end Parts

/-- Every number of days is that of a date of the calendar. -/
theorem Date.ofDays_valid (days : Int) : (Date.ofDays days).Valid := by
  obtain ⟨era, year, month, day, hparts, hdate⟩ := exists_parts days
  exact hdate ▸ hparts.valid

@[simp]
theorem Date.toDays_ofDays (days : Int) : (Date.ofDays days).toDays = days := by
  obtain ⟨era, year, month, day, hparts, hdate⟩ := exists_parts days
  rw [hdate, hparts.toDays_eq]

end Schemata.Calendar
