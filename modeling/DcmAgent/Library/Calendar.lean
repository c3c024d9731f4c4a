import Mathlib.Tactic

/-!
# The proleptic Gregorian calendar

Months are numbered through, `12 * year + month` with the month counted from 0, and so are days,
from 1970-01-01. `monthStart` is the first day of a month and `monthOf` the month of a day.
`Tm` is the broken-down time of C, with `timegm` and `gmtime` between it and the seconds since the
epoch; its year is an unbounded integer.
-/

namespace DcmAgent.Library

/-! ### Months and days -/

/-- The first day of a month. The months are counted from March, so that the leap day is the last
day of the year. -/
def monthStart (k : ℤ) : ℤ :=
  let y := (k - 2) / 12
  let m := (k - 2) % 12
  365 * y + y / 4 - y / 100 + y / 400 + (153 * m + 2) / 5 - 719468

/-- The month of a day: the mean length of a month gives it up to one. -/
def monthOf (z : ℤ) : ℤ :=
  let k := 4800 * (z + 719468) / 146097 + 2
  if z < monthStart k then k - 1
  else if monthStart (k + 1) ≤ z then k + 1
  else k

/-- The leap days of a year that ends with February: none or one. -/
lemma leapDays_succ (y : ℤ) :
    0 ≤ (y + 1) / 4 - (y + 1) / 100 + (y + 1) / 400 - (y / 4 - y / 100 + y / 400) ∧
      (y + 1) / 4 - (y + 1) / 100 + (y + 1) / 400 - (y / 4 - y / 100 + y / 400) ≤ 1 := by
  omega

/-- A month has 28 to 31 days. -/
lemma monthStart_succ (k : ℤ) :
    monthStart k + 28 ≤ monthStart (k + 1) ∧ monthStart (k + 1) ≤ monthStart k + 31 := by
  have hleap := leapDays_succ ((k - 2) / 12)
  simp only [monthStart]
  by_cases h : (k - 2) % 12 = 11
  · have hy : (k + 1 - 2) / 12 = (k - 2) / 12 + 1 := by omega
    have hm : (k + 1 - 2) % 12 = 0 := by omega
    rw [hy, hm, h]
    omega
  · have hy : (k + 1 - 2) / 12 = (k - 2) / 12 := by omega
    have hm : (k + 1 - 2) % 12 = (k - 2) % 12 + 1 := by omega
    rw [hy, hm]
    omega

lemma monthStart_lt_succ (k : ℤ) : monthStart k < monthStart (k + 1) := by
  have := (monthStart_succ k).1
  omega

lemma monthStart_strictMono : StrictMono monthStart :=
  strictMono_int_of_lt_succ monthStart_lt_succ

/-- January and December have 31 days. -/
lemma monthStart_succ_of_long {k : ℤ} (h : k % 12 = 0 ∨ k % 12 = 11) :
    monthStart (k + 1) = monthStart k + 31 := by
  simp only [monthStart]
  rcases h with h | h
  · have hy : (k + 1 - 2) / 12 = (k - 2) / 12 := by omega
    have hm : (k + 1 - 2) % 12 = 11 := by omega
    have hm' : (k - 2) % 12 = 10 := by omega
    rw [hy, hm, hm']
    omega
  · have hy : (k + 1 - 2) / 12 = (k - 2) / 12 := by omega
    have hm : (k + 1 - 2) % 12 = 10 := by omega
    have hm' : (k - 2) % 12 = 9 := by omega
    rw [hy, hm, hm']
    omega

lemma monthStart_succ_february {k : ℤ} (h : k % 12 = 1) :
    monthStart (k + 1) ≤ monthStart k + 29 := by
  have hleap := leapDays_succ ((k - 2) / 12)
  have hy : (k + 1 - 2) / 12 = (k - 2) / 12 + 1 := by omega
  have hm : (k + 1 - 2) % 12 = 0 := by omega
  have hm' : (k - 2) % 12 = 11 := by omega
  simp only [monthStart, hy, hm, hm']
  omega

/-- A month other than February has the same length every year. -/
lemma monthStart_succ_year {k : ℤ} (h : k % 12 ≠ 1) :
    monthStart (k + 12 + 1) - monthStart (k + 12) = monthStart (k + 1) - monthStart k := by
  have hy : (k + 1 - 2) / 12 = (k - 2) / 12 := by omega
  have hm : (k + 1 - 2) % 12 = (k - 2) % 12 + 1 := by omega
  have hy₁ : (k + 12 + 1 - 2) / 12 = (k - 2) / 12 + 1 := by omega
  have hm₁ : (k + 12 + 1 - 2) % 12 = (k - 2) % 12 + 1 := by omega
  have hy₂ : (k + 12 - 2) / 12 = (k - 2) / 12 + 1 := by omega
  have hm₂ : (k + 12 - 2) % 12 = (k - 2) % 12 := by omega
  simp only [monthStart, hy, hm, hy₁, hm₁, hy₂, hm₂]
  ring

/-- The start of a month lies close to its mean position. -/
lemma monthStart_mean (k : ℤ) :
    146097 * (k - 2) - 24000 ≤ 4800 * (monthStart k + 719468) ∧
      4800 * (monthStart k + 719468) ≤ 146097 * (k - 2) + 24000 := by
  simp only [monthStart]
  omega

/-- A day lies in its month. -/
theorem monthOf_spec (z : ℤ) : monthStart (monthOf z) ≤ z ∧ z < monthStart (monthOf z + 1) := by
  simp only [monthOf]
  generalize hk : 4800 * (z + 719468) / 146097 + 2 = k
  have h₀ := monthStart_mean (k - 1)
  have h₂ := monthStart_mean (k + 2)
  have h₁ : 146097 * (k - 2) ≤ 4800 * (z + 719468) ∧ 4800 * (z + 719468) < 146097 * (k - 1) := by
    omega
  split_ifs with hlo hhi
  · rw [sub_add_cancel]
    exact ⟨by omega, hlo⟩
  · rw [add_assoc]
    exact ⟨hhi, by norm_num; omega⟩
  · exact ⟨by omega, by omega⟩

/-- The month of a day is determined by its bounds. -/
theorem monthOf_eq_iff {z k : ℤ} :
    monthOf z = k ↔ monthStart k ≤ z ∧ z < monthStart (k + 1) := by
  refine ⟨fun h => h ▸ monthOf_spec z, fun ⟨hlo, hhi⟩ => ?_⟩
  obtain ⟨hlo', hhi'⟩ := monthOf_spec z
  have h₁ : monthOf z < k + 1 := monthStart_strictMono.lt_iff_lt.mp (hlo'.trans_lt hhi)
  have h₂ : k < monthOf z + 1 := monthStart_strictMono.lt_iff_lt.mp (hlo.trans_lt hhi')
  omega

@[simp] lemma monthOf_monthStart (k : ℤ) : monthOf (monthStart k) = k :=
  monthOf_eq_iff.mpr ⟨le_rfl, monthStart_lt_succ k⟩

lemma monthOf_mono {z z' : ℤ} (h : z ≤ z') : monthOf z ≤ monthOf z' := by
  have h₁ := (monthOf_spec z).1
  have h₂ := (monthOf_spec z').2
  have : monthOf z < monthOf z' + 1 := monthStart_strictMono.lt_iff_lt.mp (by omega)
  omega

/-- The `d`-th day of a month, which falls into the next month if `d` is too large. -/
lemma monthOf_mday {k d : ℤ} (h₁ : 1 ≤ d) (h₂ : d ≤ 31) :
    monthOf (monthStart k + (d - 1)) =
      if d ≤ monthStart (k + 1) - monthStart k then k else k + 1 := by
  have hlen := monthStart_succ k
  have hlen' := monthStart_succ (k + 1)
  split_ifs with h
  · exact monthOf_eq_iff.mpr ⟨by omega, by omega⟩
  · exact monthOf_eq_iff.mpr ⟨by omega, by omega⟩

/-- A day before the start of a month lies in an earlier month. -/
lemma lt_monthStart_iff {z k : ℤ} : z < monthStart k ↔ monthOf z < k := by
  constructor
  · intro h
    exact monthStart_strictMono.lt_iff_lt.mp ((monthOf_spec z).1.trans_lt h)
  · intro h
    have := monthStart_strictMono.monotone (show monthOf z + 1 ≤ k by omega)
    exact (monthOf_spec z).2.trans_le this

/-- The day of the month, from 1. -/
def mdayOf (z : ℤ) : ℤ := z - monthStart (monthOf z) + 1

/-- The day of the week, from Sunday: 1970-01-01 was a Thursday. -/
def wdayOf (z : ℤ) : ℤ := (z + 4) % 7

lemma mdayOf_bounds (z : ℤ) : 1 ≤ mdayOf z ∧ mdayOf z ≤ 31 := by
  have h₁ := monthOf_spec z
  have h₂ := (monthStart_succ (monthOf z)).2
  unfold mdayOf
  omega

lemma mdayOf_le (z : ℤ) : mdayOf z ≤ monthStart (monthOf z + 1) - monthStart (monthOf z) := by
  have := (monthOf_spec z).2
  unfold mdayOf
  omega

lemma monthStart_add_mdayOf (z : ℤ) : monthStart (monthOf z) + (mdayOf z - 1) = z := by
  unfold mdayOf
  omega

/-! ### Broken-down times -/

/-- The fields of `struct tm` that time computations use. -/
structure Tm where
  sec : ℤ
  min : ℤ
  hour : ℤ
  mday : ℤ
  mon : ℤ
  year : ℤ
  wday : ℤ
  deriving DecidableEq, Repr

/-- The seconds since the epoch. Fields outside their range carry over, and the day of the week is
ignored. -/
def timegm (tm : Tm) : ℤ :=
  86400 * (monthStart (12 * (tm.year + 1900) + tm.mon) + (tm.mday - 1)) + 3600 * tm.hour +
    60 * tm.min + tm.sec

def gmtime (t : ℤ) : Tm where
  sec := t % 60
  min := t / 60 % 60
  hour := t / 3600 % 24
  mday := mdayOf (t / 86400)
  mon := monthOf (t / 86400) % 12
  year := monthOf (t / 86400) / 12 - 1900
  wday := wdayOf (t / 86400)

lemma gmtime_month (t : ℤ) :
    12 * ((gmtime t).year + 1900) + (gmtime t).mon = monthOf (t / 86400) := by
  simp only [gmtime]
  omega

@[simp] theorem timegm_gmtime (t : ℤ) : timegm (gmtime t) = t := by
  rw [timegm, gmtime_month]
  simp only [gmtime, monthStart_add_mdayOf]
  omega

lemma gmtime_bounds (t : ℤ) :
    (0 ≤ (gmtime t).sec ∧ (gmtime t).sec < 60) ∧ (0 ≤ (gmtime t).min ∧ (gmtime t).min < 60) ∧
      (0 ≤ (gmtime t).hour ∧ (gmtime t).hour < 24) ∧
      (1 ≤ (gmtime t).mday ∧ (gmtime t).mday ≤ 31) ∧ 0 ≤ (gmtime t).mon ∧ (gmtime t).mon < 12 := by
  have := mdayOf_bounds (t / 86400)
  simp only [gmtime]
  omega

/-- The same date and time of day in another year. -/
def inYear (t year : ℤ) : ℤ := timegm { gmtime t with year }

lemma inYear_mono (t : ℤ) : Monotone (inYear t) := by
  intro y y' h
  have := monthStart_strictMono.monotone
    (show 12 * (y + 1900) + (gmtime t).mon ≤ 12 * (y' + 1900) + (gmtime t).mon by omega)
  simp only [inYear, timegm]
  omega

@[simp] lemma inYear_self (t : ℤ) : inYear t (gmtime t).year = t := timegm_gmtime t

end DcmAgent.Library
