import IndexQuery.Instant.Calendar

/-!
# Dates of day numbers

Every day number is the number of a date that the calendar has.  A year that is counted from March
ends with the February of the calendar year after it, so it is a day longer if that one is a leap
year, and a day of a cycle falls into the year whose bounds it lies between.

    daysBeforeYear (y + 1) = daysBeforeYear y + 365, or 366 before a leap year
                                                                         (daysBeforeYear_succ)
    d < daysBeforeYear (yearOfCycle d + 1)   for days of a cycle      (lt_daysBeforeYear_succ)
    (ofDayNumber n).isValid = true                                        (isValid_ofDayNumber)
-/

namespace IndexQuery.Date

/-! ## Years -/

/-- The number of days from the first of March of the year before to that of `year`. -/
def daysInYear (year : Int) : Int := if isLeapYear year then 366 else 365

theorem daysBeforeYear_succ (y : Int) :
    daysBeforeYear (y + 1) = daysBeforeYear y + daysInYear (y + 1) := by
  unfold daysBeforeYear daysInYear
  by_cases h4 : (y + 1) % 4 = 0
  · by_cases h100 : (y + 1) % 100 = 0
    · by_cases h400 : (y + 1) % 400 = 0
      · have hleap : isLeapYear (y + 1) = true := by simp [isLeapYear, h4, h400]
        rw [if_pos hleap]
        omega
      · have hleap : ¬ isLeapYear (y + 1) = true := by simp [isLeapYear, h100, h400]
        rw [if_neg hleap]
        omega
    · have hleap : isLeapYear (y + 1) = true := by simp [isLeapYear, h4, h100]
      rw [if_pos hleap]
      omega
  · have hleap : ¬ isLeapYear (y + 1) = true := by simp [isLeapYear, h4]
    rw [if_neg hleap]
    omega

theorem isLeapYear_add_cycle (y c : Int) : isLeapYear (y + 400 * c) = isLeapYear y := by
  have h4 : (y + 400 * c) % 4 = y % 4 := by omega
  have h100 : (y + 400 * c) % 100 = y % 100 := by omega
  have h400 : (y + 400 * c) % 400 = y % 400 := by omega
  unfold isLeapYear
  rw [h4, h100, h400]

/-- A day of a cycle lies before the end of its year. -/
theorem lt_daysBeforeYear_succ {d : Int} (h₀ : 0 ≤ d) (h₁ : d < 146097) :
    d < daysBeforeYear (yearOfCycle d + 1) := by
  unfold yearOfCycle
  dsimp only
  have hc : 0 ≤ min (d / 36524) 3 ∧ min (d / 36524) 3 ≤ 3 ∧
      0 ≤ d - 36524 * min (d / 36524) 3 ∧
      (min (d / 36524) 3 < 3 → d - 36524 * min (d / 36524) 3 < 36524) ∧
      d - 36524 * min (d / 36524) 3 ≤ 36524 := by omega
  generalize min (d / 36524) 3 = c at *
  have hg : 0 ≤ (d - 36524 * c) / 1461 ∧ (d - 36524 * c) / 1461 ≤ 24 ∧
      0 ≤ d - 36524 * c - 1461 * ((d - 36524 * c) / 1461) ∧
      d - 36524 * c - 1461 * ((d - 36524 * c) / 1461) ≤ 1460 := by omega
  generalize (d - 36524 * c) / 1461 = g at *
  have hy : 0 ≤ min ((d - 36524 * c - 1461 * g) / 365) 3 ∧
      min ((d - 36524 * c - 1461 * g) / 365) 3 ≤ 3 ∧
      (min ((d - 36524 * c - 1461 * g) / 365) 3 < 3 →
        d - 36524 * c - 1461 * g < 365 * (min ((d - 36524 * c - 1461 * g) / 365) 3 + 1)) := by omega
  generalize min ((d - 36524 * c - 1461 * g) / 365) 3 = y at *
  -- the next year is in the same group, the first of the next group, of the next century, or of
  -- the next cycle
  by_cases hy3 : y < 3
  · have hnext : 100 * c + 4 * g + y + 1 = 100 * c + 4 * g + (y + 1) := by omega
    rw [hnext, daysBeforeYear_of_parts hc.1 hc.2.1 hg.1 hg.2.1 (by omega) (by omega)]
    omega
  · by_cases hg24 : g < 24
    · have hnext : 100 * c + 4 * g + y + 1 = 100 * c + 4 * (g + 1) + 0 := by omega
      rw [hnext, daysBeforeYear_of_parts hc.1 hc.2.1 (by omega) (by omega) (by omega) (by omega)]
      omega
    · by_cases hc3 : c < 3
      · have hnext : 100 * c + 4 * g + y + 1 = 100 * (c + 1) + 4 * 0 + 0 := by omega
        rw [hnext, daysBeforeYear_of_parts (by omega) (by omega) (by omega) (by omega) (by omega)
          (by omega)]
        omega
      · have hnext : 100 * c + 4 * g + y + 1 = 400 := by omega
        have hcycle : daysBeforeYear 400 = 146097 := by decide
        rw [hnext, hcycle]
        exact h₁

/-! ## Months -/

/-- A day of a year from March on has a place in its month, which for the last month is bounded by
the length of the year. -/
theorem day_bounds {d year : Int} (h₀ : 0 ≤ d) (h₁ : d < daysInYear (year + 1)) :
    let months := (5 * d + 2) / 153
    let day := (d - daysBeforeMonth months + 1).toNat
    1 ≤ day ∧ (months < 10 → day ≤ daysInMonth year (months + 3).toNat) ∧
      (10 ≤ months → day ≤ daysInMonth (year + 1) (months - 9).toNat) := by
  have hd : d ≤ 365 := by
    unfold daysInYear at h₁
    split at h₁ <;> omega
  obtain ⟨hm₀, hm₁, -⟩ := months_bounds h₀ hd
  dsimp only
  generalize hmonths : (5 * d + 2) / 153 = m at *
  have hcases : m = 0 ∨ m = 1 ∨ m = 2 ∨ m = 3 ∨ m = 4 ∨ m = 5 ∨ m = 6 ∨ m = 7 ∨ m = 8 ∨ m = 9 ∨
      m = 10 ∨ m = 11 := by omega
  rcases hcases with rfl | rfl | rfl | rfl | rfl | rfl | rfl | rfl | rfl | rfl | rfl | rfl
  case inr.inr.inr.inr.inr.inr.inr.inr.inr.inr.inr =>
    -- February: only here the length of the year counts
    have hfebruary : daysInMonth (year + 1) ((11 : Int) - 9).toNat =
        if isLeapYear (year + 1) then 29 else 28 := rfl
    rw [hfebruary]
    unfold daysInYear at h₁
    unfold daysBeforeMonth
    split at h₁
    · next h => rw [if_pos h]; omega
    · next h => rw [if_neg h]; omega
  all_goals
    simp [daysBeforeMonth, daysInMonth]
    omega

/-! ## Dates -/

/-- A month from one to twelve and a day of it make a date. -/
theorem isValid_of_bounds {year : Int} {month day : Nat} (hm₀ : 1 ≤ month) (hm₁ : month ≤ 12)
    (hd₀ : 1 ≤ day) (hd₁ : day ≤ daysInMonth year month) :
    (⟨year, month, day⟩ : Date).isValid = true := by
  simp [isValid, hm₀, hm₁, hd₀, hd₁]

/-- A date of the calendar has a month and a day of two digits. -/
theorem bounds_of_isValid {d : Date} (h : d.isValid = true) : d.month ≤ 12 ∧ d.day ≤ 31 := by
  simp only [isValid, Bool.and_eq_true, decide_eq_true_eq] at h
  have hmonth : daysInMonth d.year d.month ≤ 31 := by
    unfold daysInMonth
    split
    · split <;> omega
    · split <;> omega
  omega

theorem isValid_ofDayNumber (n : Int) : (ofDayNumber n).isValid = true := by
  have h₀ := Int.emod_nonneg (n + epoch) (b := 146097) (by decide)
  have h₁ := Int.emod_lt_of_pos (n + epoch) (b := 146097) (by decide)
  obtain ⟨-, -, hlow, hmax⟩ := yearOfCycle_bounds h₀ h₁
  have hhigh := lt_daysBeforeYear_succ h₀ h₁
  rw [daysBeforeYear_succ] at hhigh
  unfold ofDayNumber
  dsimp only
  generalize (n + epoch) % 146097 = d at *
  generalize (n + epoch) / 146097 = cycle at *
  have hlength : daysInYear (yearOfCycle d + 400 * cycle + 1) = daysInYear (yearOfCycle d + 1) := by
    have hnext : yearOfCycle d + 400 * cycle + 1 = yearOfCycle d + 1 + 400 * cycle := by omega
    unfold daysInYear
    rw [hnext, isLeapYear_add_cycle]
  generalize hday : d - daysBeforeYear (yearOfCycle d) = dayOfYear at *
  have hlt : dayOfYear < daysInYear (yearOfCycle d + 400 * cycle + 1) := by
    rw [hlength]
    omega
  obtain ⟨hfirst, hearly, hlate⟩ := day_bounds hlow hlt
  obtain ⟨hm₀, hm₁, -⟩ := months_bounds hlow hmax
  split
  · next h => exact isValid_of_bounds (by omega) (by omega) hfirst (hearly h)
  · next h => exact isValid_of_bounds (by omega) (by omega) hfirst (hlate (by omega))

end IndexQuery.Date
