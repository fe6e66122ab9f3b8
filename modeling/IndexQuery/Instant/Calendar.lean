/-!
# The Gregorian calendar

Dates of the proleptic Gregorian calendar and the number of days from 1970-01-01 to them.  Days
are counted from March to February, so the leap day ends the year and a cycle of four hundred
such years has 146097 days.

    (Date.ofDayNumber n).dayNumber = n                              (dayNumber_ofDayNumber)
-/

namespace IndexQuery

/-- A day of the calendar; year zero comes before year one. -/
structure Date where
  year : Int
  month : Nat
  day : Nat
  deriving DecidableEq, Repr

namespace Date

/-! ## Algorithm -/

/-- A year with a leap day: divisible by four, but by a hundred only if by four hundred. -/
def isLeapYear (year : Int) : Bool := year % 4 == 0 && (year % 100 != 0 || year % 400 == 0)

/-- The number of days in a month. -/
def daysInMonth (year : Int) (month : Nat) : Nat :=
  if month = 2 then (if isLeapYear year then 29 else 28)
  else if month = 4 ∨ month = 6 ∨ month = 9 ∨ month = 11 then 30
  else 31

/-- A date that the calendar has. -/
def isValid (d : Date) : Bool :=
  1 ≤ d.month && d.month ≤ 12 && 1 ≤ d.day && d.day ≤ daysInMonth d.year d.month

/-- Days from 0000-03-01 to the first of March of `year`. -/
def daysBeforeYear (year : Int) : Int := 365 * year + year / 4 - year / 100 + year / 400

/-- Days from the first of March to the first day of the month that follows March by `months`. -/
def daysBeforeMonth (months : Int) : Int := (153 * months + 2) / 5

/-- Days from 0000-03-01 to 1970-01-01. -/
def epoch : Int := 719468

/-- Days from 1970-01-01 to a date. -/
def dayNumber (d : Date) : Int :=
  let year := if d.month ≤ 2 then d.year - 1 else d.year
  let months : Int := if d.month ≤ 2 then d.month + 9 else d.month - 3
  daysBeforeYear year + daysBeforeMonth months + (d.day - 1) - epoch

/-- The year of a four-hundred-year cycle that a day of the cycle falls in: first the century, of
which the last is a day longer, then the four-year group, then the year, of which again the last
may be longer. -/
def yearOfCycle (d : Int) : Int :=
  let century := min (d / 36524) 3
  let dayOfCentury := d - 36524 * century
  let group := dayOfCentury / 1461
  let year := min ((dayOfCentury - 1461 * group) / 365) 3
  100 * century + 4 * group + year

/-- The date that is `n` days from 1970-01-01. -/
def ofDayNumber (n : Int) : Date :=
  let cycle := (n + epoch) / 146097
  let dayOfCycle := (n + epoch) % 146097
  let dayOfYear := dayOfCycle - daysBeforeYear (yearOfCycle dayOfCycle)
  let months := (5 * dayOfYear + 2) / 153
  let day := (dayOfYear - daysBeforeMonth months + 1).toNat
  let year := yearOfCycle dayOfCycle + 400 * cycle
  if months < 10 then ⟨year, (months + 3).toNat, day⟩ else ⟨year + 1, (months - 9).toNat, day⟩

/-! ## Lemmas -/

theorem daysBeforeYear_of_parts {c g y : Int} (hc₀ : 0 ≤ c) (hc₁ : c ≤ 3) (hg₀ : 0 ≤ g)
    (hg₁ : g ≤ 24) (hy₀ : 0 ≤ y) (hy₁ : y ≤ 3) :
    daysBeforeYear (100 * c + 4 * g + y) = 36524 * c + 1461 * g + 365 * y := by
  have h4 : (100 * c + 4 * g + y) / 4 = 25 * c + g := by omega
  have h100 : (100 * c + 4 * g + y) / 100 = c := by omega
  have h400 : (100 * c + 4 * g + y) / 400 = 0 := by omega
  rw [daysBeforeYear, h4, h100, h400]
  omega

theorem yearOfCycle_bounds {d : Int} (h₀ : 0 ≤ d) (h₁ : d < 146097) :
    0 ≤ yearOfCycle d ∧ yearOfCycle d < 400 ∧
      0 ≤ d - daysBeforeYear (yearOfCycle d) ∧ d - daysBeforeYear (yearOfCycle d) ≤ 365 := by
  unfold yearOfCycle
  dsimp only
  have hc : 0 ≤ min (d / 36524) 3 ∧ min (d / 36524) 3 ≤ 3 ∧
      0 ≤ d - 36524 * min (d / 36524) 3 ∧ d - 36524 * min (d / 36524) 3 ≤ 36524 := by omega
  generalize min (d / 36524) 3 = c at *
  have hg : 0 ≤ (d - 36524 * c) / 1461 ∧ (d - 36524 * c) / 1461 ≤ 24 := by omega
  have hr : 0 ≤ d - 36524 * c - 1461 * ((d - 36524 * c) / 1461) ∧
      d - 36524 * c - 1461 * ((d - 36524 * c) / 1461) ≤ 1460 := by omega
  generalize (d - 36524 * c) / 1461 = g at *
  have hy : 0 ≤ min ((d - 36524 * c - 1461 * g) / 365) 3 ∧
      min ((d - 36524 * c - 1461 * g) / 365) 3 ≤ 3 ∧
      0 ≤ d - 36524 * c - 1461 * g - 365 * min ((d - 36524 * c - 1461 * g) / 365) 3 ∧
      d - 36524 * c - 1461 * g - 365 * min ((d - 36524 * c - 1461 * g) / 365) 3 ≤ 365 := by omega
  generalize min ((d - 36524 * c - 1461 * g) / 365) 3 = y at *
  rw [daysBeforeYear_of_parts hc.1 hc.2.1 hg.1 hg.2 hy.1 hy.2.1]
  omega

theorem months_bounds {d : Int} (h₀ : 0 ≤ d) (h₁ : d ≤ 365) :
    0 ≤ (5 * d + 2) / 153 ∧ (5 * d + 2) / 153 < 12 ∧
      0 ≤ d - daysBeforeMonth ((5 * d + 2) / 153) := by
  unfold daysBeforeMonth
  omega

theorem daysBeforeYear_add_cycle (y c : Int) :
    daysBeforeYear (y + 400 * c) = daysBeforeYear y + 146097 * c := by
  unfold daysBeforeYear
  omega

theorem dayNumber_ofDayNumber (n : Int) : (ofDayNumber n).dayNumber = n := by
  have hc := Int.emod_add_mul_ediv (n + epoch) 146097
  obtain ⟨_, _, hd₀, hd₁⟩ := yearOfCycle_bounds (Int.emod_nonneg (n + epoch) (by decide))
    (Int.emod_lt_of_pos (n + epoch) (by decide))
  obtain ⟨hm₀, hm₁, hd₂⟩ := months_bounds hd₀ hd₁
  unfold ofDayNumber
  dsimp only
  generalize hdoy : (n + epoch) % 146097 - daysBeforeYear (yearOfCycle ((n + epoch) % 146097)) =
    dayOfYear at *
  generalize hmon : (5 * dayOfYear + 2) / 153 = months at *
  split
  · next h =>
    have h2 : ¬ (months + 3).toNat ≤ 2 := by omega
    have h3 : ((months + 3).toNat : Int) - 3 = months := by omega
    simp only [dayNumber, h2, if_false, h3, daysBeforeYear_add_cycle]
    omega
  · next h =>
    have h2 : (months - 9).toNat ≤ 2 := by omega
    have h3 : ((months - 9).toNat : Int) + 9 = months := by omega
    simp only [dayNumber, h2, if_true, h3, Int.add_sub_cancel, daysBeforeYear_add_cycle]
    omega

end Date

end IndexQuery
