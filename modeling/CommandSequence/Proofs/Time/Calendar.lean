import CommandSequence.Time.Instant
import Mathlib.Data.Nat.Basic
import Mathlib.Order.Monotone.Basic

/-!
# The years of the calendar as day numbers

The first day of a year follows the last day of the year before (`daysBeforeYear_succ`), so the day
numbers of different years do not overlap. A day number therefore stands for one day of one year
(`IsDay.unique`), which is what taking the cycles off it leaves (`isDay_yearAndDay`).
-/

namespace CommandSequence.Calendar

/-- The days of a year. -/
def yearLength (year : Nat) : Nat :=
  if isLeap year then 366 else 365

theorem isLeap_iff {year : Nat} :
    isLeap year = true ↔ 4 ∣ year ∧ (¬ 100 ∣ year ∨ 400 ∣ year) := by
  simp [isLeap, Nat.dvd_iff_mod_eq_zero]

theorem yearLength_bounds (year : Nat) : 365 ≤ yearLength year ∧ yearLength year ≤ 366 := by
  unfold yearLength
  split <;> decide

/-! ## From years to days -/

/-- Each year begins after the days of the year before. -/
theorem daysBeforeYear_succ {year : Nat} (h : 1 ≤ year) :
    daysBeforeYear (year + 1) = daysBeforeYear year + yearLength year := by
  obtain ⟨before, rfl⟩ := Nat.exists_eq_add_of_le' h
  have hle : before / 100 ≤ before / 4 := by omega
  have h100 : 100 ∣ before + 1 → 4 ∣ before + 1 := Nat.dvd_trans (by decide)
  have h400 : 400 ∣ before + 1 → 100 ∣ before + 1 := Nat.dvd_trans (by decide)
  simp only [daysBeforeYear, yearLength, isLeap_iff, Nat.add_sub_cancel, Nat.succ_div]
  generalize before / 4 = fours at hle ⊢
  generalize before / 100 = centuries at hle ⊢
  by_cases hfour : 4 ∣ before + 1
  · by_cases hcentury : 100 ∣ before + 1
    · by_cases hcycle : 400 ∣ before + 1
      · simp only [hfour, hcentury, hcycle, if_true, not_true, or_true, and_self]
        omega
      · simp only [hfour, hcentury, hcycle, if_true, if_false, not_true, or_self, and_false]
        omega
    · simp only [hfour, hcentury, mt h400 hcentury, if_true, if_false, not_false_iff, true_or,
        and_self]
      omega
  · simp only [hfour, mt h100 hfour, mt (h100 ∘ h400) hfour, if_false, false_and]
    omega

theorem daysBeforeYear_le {year later : Nat} (h : 1 ≤ year) (hle : year ≤ later) :
    daysBeforeYear year ≤ daysBeforeYear later := by
  induction later, hle using Nat.le_induction with
  | base => exact Nat.le_refl _
  | succ later hle ih =>
    rw [daysBeforeYear_succ (Nat.le_trans h hle)]
    exact Nat.le_trans ih (Nat.le_add_right _ _)

/-- The days of an earlier year come before those of a later one. -/
theorem daysBeforeYear_lt {year later : Nat} (h : 1 ≤ year) (hlt : year < later) :
    daysBeforeYear year + yearLength year ≤ daysBeforeYear later := by
  rw [← daysBeforeYear_succ h]
  exact daysBeforeYear_le (Nat.le_add_left 1 year) hlt

/-! ## From days to years -/

/-- A year after whole cycles of 400, 100 and 4 years and some single ones. -/
def yearAfter (cycles centuries fours years : Nat) : Nat :=
  400 * cycles + 100 * centuries + 4 * fours + years + 1

section Cycles

variable {cycles centuries fours years : Nat}
  (hcenturies : centuries ≤ 3) (hfours : fours ≤ 24) (hyears : years ≤ 3)

include hcenturies hfours hyears

/-- Each kind of cycle has its own count of days. -/
theorem daysBeforeYear_yearAfter :
    daysBeforeYear (yearAfter cycles centuries fours years) =
      146097 * cycles + 36524 * centuries + 1461 * fours + 365 * years := by
  have hbefore : yearAfter cycles centuries fours years - 1 =
      400 * cycles + 100 * centuries + 4 * fours + years := Nat.add_sub_cancel ..
  have hfour : (400 * cycles + 100 * centuries + 4 * fours + years) / 4 =
      100 * cycles + 25 * centuries + fours := by omega
  have hcentury : (400 * cycles + 100 * centuries + 4 * fours + years) / 100 =
      4 * cycles + centuries := by omega
  have hcycle : (400 * cycles + 100 * centuries + 4 * fours + years) / 400 = cycles := by omega
  rw [daysBeforeYear, hbefore, hfour, hcentury, hcycle]
  omega

/-- The fourth year of a cycle of four is a leap year, except at the end of a century that does not
end a cycle of 400 years. -/
theorem isLeap_yearAfter :
    isLeap (yearAfter cycles centuries fours years) = true ↔
      years = 3 ∧ (fours < 24 ∨ centuries = 3) := by
  have hfour : yearAfter cycles centuries fours years % 4 = (years + 1) % 4 := by
    unfold yearAfter
    omega
  have hcentury : yearAfter cycles centuries fours years % 100 = (4 * fours + years + 1) % 100 := by
    unfold yearAfter
    omega
  have hcycle : yearAfter cycles centuries fours years % 400 =
      (100 * centuries + 4 * fours + years + 1) % 400 := by
    unfold yearAfter
    omega
  simp only [isLeap, hfour, hcentury, hcycle, Bool.and_eq_true, Bool.or_eq_true, beq_iff_eq,
    bne_iff_ne]
  omega

end Cycles

/-- A day number stands for a day of a year. -/
structure IsDay (number year day : Nat) : Prop where
  begun : 1 ≤ year
  first : 1 ≤ day
  last : day ≤ yearLength year
  counted : daysBeforeYear year + day = number + 1

/-- A day number stands for the year and day that taking the cycles off leaves. -/
theorem isDay_yearAndDay (number : Nat) :
    IsDay number (yearAndDay number).1 (yearAndDay number).2 := by
  let inCycle := number % 146097
  let centuries := min 3 (inCycle / 36524)
  let inCentury := inCycle - centuries * 36524
  let inFour := inCentury % 1461
  let years := min 3 (inFour / 365)
  have hcenturies : centuries ≤ 3 := Nat.min_le_left ..
  have hyears : years ≤ 3 := Nat.min_le_left ..
  have hfours : inCentury / 1461 ≤ 24 := by omega
  have hyear : (yearAndDay number).1 =
      yearAfter (number / 146097) centuries (inCentury / 1461) years := rfl
  have hday : (yearAndDay number).2 = inFour - years * 365 + 1 := rfl
  have hlast : inFour - years * 365 ≤ 364 ∨
      inFour - years * 365 = 365 ∧ years = 3 ∧ (inCentury / 1461 < 24 ∨ centuries = 3) := by
    omega
  rw [hyear, hday]
  constructor
  · exact Nat.le_add_left ..
  · exact Nat.le_add_left ..
  · rcases hlast with hlast | ⟨hlast, hleap⟩
    · exact Nat.le_trans (Nat.succ_le_succ hlast) (yearLength_bounds _).1
    · rw [yearLength, if_pos ((isLeap_yearAfter hcenturies hfours hyears).2 hleap), hlast]
  · rw [daysBeforeYear_yearAfter hcenturies hfours hyears]
    omega

/-- A day number stands for one day only. -/
theorem IsDay.unique {number year day year' day' : Nat} (h : IsDay number year day)
    (h' : IsDay number year' day') : year = year' ∧ day = day' := by
  have hsame : daysBeforeYear year + day = daysBeforeYear year' + day' :=
    h.counted.trans h'.counted.symm
  have hlast := h.last
  have hlast' := h'.last
  have hfirst := h.first
  have hfirst' := h'.first
  rcases Nat.lt_trichotomy year year' with hlt | rfl | hlt
  · have := daysBeforeYear_lt h.begun hlt
    omega
  · exact ⟨rfl, Nat.add_left_cancel hsame⟩
  · have := daysBeforeYear_lt h'.begun hlt
    omega

theorem yearAndDay_eq {number year day : Nat} (h : IsDay number year day) :
    yearAndDay number = (year, day) := by
  obtain ⟨hyear, hday⟩ := (isDay_yearAndDay number).unique h
  exact Prod.ext hyear hday

end CommandSequence.Calendar
