import Mathlib.Tactic
import DcmAgent.Cron.Fields

/-!
# Days and months of the search

The day search tries 367 days in a row (`nextDay`). The month search goes to the same day of the
next month in the set (`monthMove`), which `timegm` carries over to the month after it when the
month is too short; the resets then lead to the first day of that month (`landing`).
-/

namespace DcmAgent.Cron

open Library

variable {e : DcmCronExpr} {t : ℤ} {rs : List Field}

/-- The day has its day of the month and its day of the week in their sets. -/
def DayIn (e : DcmCronExpr) (z : ℤ) : Prop :=
  InSet e.daysOfMonth (mdayOf z) ∧ InSet e.daysOfWeek (wdayOf z)

instance (e : DcmCronExpr) (z : ℤ) : Decidable (DayIn e z) := by
  unfold DayIn; infer_instance

def MonthIn (e : DcmCronExpr) (k : ℤ) : Prop := InSet e.months (k % 12)

instance (e : DcmCronExpr) (k : ℤ) : Decidable (MonthIn e k) := by
  unfold MonthIn; infer_instance

/-! ### Days -/

/-- The first matching day among `n` days, or the day after them. -/
def findDay (e : DcmCronExpr) : ℕ → ℤ → ℤ
  | 0, z => z
  | n + 1, z => if DayIn e z then z else findDay e n (z + 1)

/-- The day that the day search ends at. -/
def nextDay (e : DcmCronExpr) (z : ℤ) : ℤ := findDay e 366 z

lemma le_findDay (e : DcmCronExpr) (n : ℕ) (z : ℤ) : z ≤ findDay e n z := by
  induction n generalizing z with
  | zero => exact le_rfl
  | succ n ih =>
    rw [findDay]
    split_ifs
    · exact le_rfl
    · have := ih (z + 1)
      omega

/-- The days that are passed over do not match. -/
lemma not_dayIn_of_lt_findDay {n : ℕ} {z x : ℤ} (hz : z ≤ x) (hx : x < findDay e n z) :
    ¬DayIn e x := by
  induction n generalizing z with
  | zero => simp only [findDay] at hx; omega
  | succ n ih =>
    rw [findDay] at hx
    split_ifs at hx with h
    · omega
    · by_cases hxz : x = z
      · rwa [hxz]
      · exact ih (by omega) hx

lemma le_nextDay (e : DcmCronExpr) (z : ℤ) : z ≤ nextDay e z := le_findDay e 366 z

lemma nextDay_eq_self_iff {z : ℤ} : nextDay e z = z ↔ DayIn e z := by
  rw [nextDay, findDay]
  split_ifs with h
  · simp [h]
  · have := le_findDay e 365 (z + 1)
    simp only [h, iff_false]
    omega

/-- Resets on one day, then more days and the same resets. -/
lemma ResetSpec.add_days {a b r k : ℤ} (hday : Field.dayOfMonth ∉ rs) (h₁ : ResetSpec rs a b)
    (h₂ : ResetSpec rs (b + 86400 * k) r) : ResetSpec rs (a + 86400 * k) r := by
  have hsec : (b + 86400 * k) % 60 = b % 60 := by omega
  have hmin : (b + 86400 * k) / 60 % 60 = b / 60 % 60 := by omega
  have hhour : (b + 86400 * k) / 3600 % 24 = b / 3600 % 24 := by omega
  have hsec' : (a + 86400 * k) % 60 = a % 60 := by omega
  have hmin' : (a + 86400 * k) / 60 % 60 = a / 60 % 60 := by omega
  have hhour' : (a + 86400 * k) / 3600 % 24 = a / 3600 % 24 := by omega
  have hbday := h₁.day
  have hrday := h₂.day
  rw [if_neg hday] at hbday hrday
  refine ⟨?_, ?_, ?_, ?_⟩
  · rw [h₂.sec, hsec, h₁.sec, hsec']
    split_ifs <;> rfl
  · rw [h₂.min, hmin, h₁.min, hmin']
    split_ifs <;> rfl
  · rw [h₂.hour, hhour, h₁.hour, hhour']
    split_ifs <;> rfl
  · rw [if_neg hday]
    omega

/-- The day search never fails: the day it ends at, and the time there. -/
lemma findNextDayLoop_eq (hrs : ∀ f ∈ rs, f.IsLow) (hday : Field.dayOfMonth ∉ rs) (n : ℕ)
    (ht : 0 ≤ t) :
    ∃ r, findNextDayLoop e.daysOfMonth e.daysOfWeek rs n (gmtime t) (mdayOf (t / 86400)).toNat
        (wdayOf (t / 86400)).toNat = some ((mdayOf (findDay e n (t / 86400))).toNat, gmtime r) ∧
      if findDay e n (t / 86400) = t / 86400 then r = t
      else ResetSpec rs (t + 86400 * (findDay e n (t / 86400) - t / 86400)) r := by
  induction n generalizing t with
  | zero => exact ⟨t, rfl, by simp [findDay]⟩
  | succ n ih =>
    rw [findNextDayLoop]
    by_cases hin : DayIn e (t / 86400)
    · have hno : ¬(¬dcmCronParseGetBit e.daysOfMonth (mdayOf (t / 86400)).toNat = true ∨
          ¬dcmCronParseGetBit e.daysOfWeek (wdayOf (t / 86400)).toNat = true) := by
        rintro (hc | hc)
        · exact hc hin.1
        · exact hc hin.2
      rw [if_neg hno, findDay, if_pos hin]
      exact ⟨t, rfl, by simp⟩
    · have hgo : ¬dcmCronParseGetBit e.daysOfMonth (mdayOf (t / 86400)).toNat = true ∨
          ¬dcmCronParseGetBit e.daysOfWeek (wdayOf (t / 86400)).toNat = true :=
        not_and_or.mp hin
      have hadd : dcmCronParseAddToField (gmtime t) .dayOfMonth 1 =
          (decide (t + 86400 ≠ -1), gmtime (t + 86400)) := dcmCronParseAddToField_day t
      have hok : decide (t + 86400 ≠ -1) = true := decide_eq_true (by omega)
      rw [if_pos hgo, hadd, hok, checked, if_pos rfl, Option.bind_some,
        dcmCronParseResetAllMin_eq hrs (by omega)]
      -- the rest of the loop runs from the next day, with the resets made
      have hspec := resetSpec_resetTimes hrs (t + 86400)
      generalize resetTimes (t + 86400) rs = t' at hspec ⊢
      have hday' : t' / 86400 = t / 86400 + 1 := by
        have := hspec.day
        rw [if_neg hday] at this
        omega
      have hfields : (gmtime (t + 86400)).mday = mdayOf (t' / 86400) ∧
          (gmtime (t + 86400)).wday = wdayOf (t' / 86400) := by
        rw [hday', show t / 86400 + 1 = (t + 86400) / 86400 by omega]
        exact ⟨rfl, rfl⟩
      rw [hfields.1, hfields.2, findDay, if_neg hin]
      obtain ⟨r, hloop, hr⟩ := ih (hspec.nonneg (by omega))
      have hle := le_findDay e n (t / 86400 + 1)
      rw [hday'] at hr hloop ⊢
      refine ⟨r, hloop, ?_⟩
      rw [if_neg (by omega)]
      split_ifs at hr with hstop
      · rw [hr, hstop]
        simpa using hspec
      · have := ResetSpec.add_days hday hspec hr
        rwa [show t + 86400 + 86400 * (findDay e n (t / 86400 + 1) - (t / 86400 + 1)) =
          t + 86400 * (findDay e n (t / 86400 + 1) - t / 86400) by ring] at this

/-- The search of a day. -/
theorem dcmCronParseFindNextDay_eq (e : DcmCronExpr) (hrs : ∀ f ∈ rs, f.IsLow)
    (hday : Field.dayOfMonth ∉ rs) (ht : 0 ≤ t) :
    ∃ r, dcmCronParseFindNextDay (gmtime t) e.daysOfMonth (mdayOf (t / 86400)).toNat e.daysOfWeek
        (wdayOf (t / 86400)).toNat rs =
        some ((mdayOf (nextDay e (t / 86400))).toNat, gmtime r) ∧
      if nextDay e (t / 86400) = t / 86400 then r = t
      else ResetSpec rs (t + 86400 * (nextDay e (t / 86400) - t / 86400)) r :=
  findNextDayLoop_eq hrs hday 366 ht

/-! ### Months -/

/-- The first month in the set, from `k` on, among `n` months, or the month after them. -/
def findMonth (e : DcmCronExpr) : ℕ → ℤ → ℤ
  | 0, k => k
  | n + 1, k => if MonthIn e k then k else findMonth e n (k + 1)

/-- The next month in the set. -/
def nextMonth (e : DcmCronExpr) (k : ℤ) : ℤ := findMonth e 12 k

/-- The day that the month search moves `z` to, before any resets. On the roll-over the year is
advanced first, which takes February 29 to March 1. -/
def monthMove (e : DcmCronExpr) (z : ℤ) : ℤ :=
  let k := monthOf z
  let w := nextMonth e k
  if w / 12 = k / 12 then monthStart w + (mdayOf z - 1)
  else monthStart w + (mdayOf (monthStart (k + 12) + (mdayOf z - 1)) - 1)

/-- The first day of the month that the month search moves `z` to. -/
def landing (e : DcmCronExpr) (z : ℤ) : ℤ := monthStart (monthOf (monthMove e z))

lemma findMonth_of_nextUnit {n : ℕ} {k w : ℤ} (h : NextUnit e.months 12 k w) (hn : w < k + n) :
    findMonth e n k = w := by
  induction n generalizing k with
  | zero =>
    have := h.le
    omega
  | succ n ih =>
    rw [findMonth]
    split_ifs with hin
    · by_contra hne
      exact h.skip k le_rfl (lt_of_le_of_ne h.le hne) hin
    · have hne : k ≠ w := fun heq => hin (by rw [heq]; exact h.mem)
      have hle := h.le
      have hlt := h.lt
      exact ih ⟨by omega, by omega, h.mem, fun x hx hxw => h.skip x (by omega) hxw⟩ (by omega)

lemma nextMonth_of_nextUnit {k w : ℤ} (h : NextUnit e.months 12 k w) : nextMonth e k = w :=
  findMonth_of_nextUnit h h.lt

lemma exists_nextUnit_month (hm : HasBit e.months 0 12) (k : ℤ) :
    NextUnit e.months 12 k (nextMonth e k) := by
  obtain ⟨w, hw⟩ : ∃ w, NextUnit e.months (12 : ℕ) k w := exists_nextUnit (by norm_num) hm k
  rwa [nextMonth_of_nextUnit hw]

/-- The day after the roll-over of a year keeps its number, except for February 29. -/
lemma mdayOf_rollOver (z : ℤ) :
    mdayOf (monthStart (monthOf z + 12) + (mdayOf z - 1)) = mdayOf z ∨
      (monthOf z % 12 = 1 ∧ mdayOf z ≤ 29 ∧
        mdayOf (monthStart (monthOf z + 12) + (mdayOf z - 1)) = 1) := by
  obtain ⟨hlo, hhi⟩ := mdayOf_bounds z
  have hle := mdayOf_le z
  have hmonth := monthOf_mday (k := monthOf z + 12) hlo hhi
  generalize hz' : monthStart (monthOf z + 12) + (mdayOf z - 1) = z' at hmonth ⊢
  have hmday : mdayOf z' = z' - monthStart (monthOf z') + 1 := rfl
  split_ifs at hmonth with hfits
  · left
    rw [hmday, hmonth]
    omega
  · right
    by_cases hfeb : monthOf z % 12 = 1
    · have hlen := monthStart_succ_february hfeb
      have hlen' := monthStart_succ (monthOf z + 12)
      refine ⟨hfeb, by omega, ?_⟩
      rw [hmday, hmonth]
      omega
    · have := monthStart_succ_year hfeb
      omega

/-- The month search ends in the next month of the set, or in the month after it when the day is
too large for it. -/
theorem monthOf_monthMove (hm : HasBit e.months 0 12) (z : ℤ) :
    monthOf (monthMove e z) =
      if mdayOf z ≤ monthStart (nextMonth e (monthOf z) + 1) - monthStart (nextMonth e (monthOf z))
      then nextMonth e (monthOf z) else nextMonth e (monthOf z) + 1 := by
  obtain ⟨hlo, hhi⟩ := mdayOf_bounds z
  have hunit := exists_nextUnit_month hm (monthOf z)
  simp only [monthMove]
  generalize nextMonth e (monthOf z) = w at hunit ⊢
  split_ifs with hyear hfits hfits
  · rw [monthOf_mday hlo hhi, if_pos hfits]
  · rw [monthOf_mday hlo hhi, if_neg hfits]
  · rcases mdayOf_rollOver z with h | ⟨-, -, h⟩
    · rw [h, monthOf_mday hlo hhi, if_pos hfits]
    · rw [h]
      simp
  · rcases mdayOf_rollOver z with h | ⟨hfeb, h29, -⟩
    · rw [h, monthOf_mday hlo hhi, if_neg hfits]
    · -- from February the roll-over leads to January, which has 31 days
      have hle := hunit.le
      have hlt := hunit.lt
      have hjan : w % 12 = 0 := by omega
      have := monthStart_succ_of_long (Or.inl hjan)
      omega

lemma lt_nextMonth (hm : HasBit e.months 0 12) {k : ℤ} (hno : ¬MonthIn e k) :
    k < nextMonth e k := by
  have hunit := exists_nextUnit_month hm k
  refine lt_of_le_of_ne hunit.le fun heq => hno ?_
  rw [MonthIn, heq]
  exact hunit.mem

/-- The month search does not fall back behind the first day of the next month in the set. -/
lemma monthStart_nextMonth_le (e : DcmCronExpr) (z : ℤ) :
    monthStart (nextMonth e (monthOf z)) ≤ monthMove e z := by
  have h₁ := (mdayOf_bounds z).1
  have h₂ := (mdayOf_bounds (monthStart (monthOf z + 12) + (mdayOf z - 1))).1
  simp only [monthMove]
  split_ifs <;> omega

/-- Nor does the first day of the month it ends in. -/
lemma monthStart_nextMonth_le_landing (e : DcmCronExpr) (z : ℤ) :
    monthStart (nextMonth e (monthOf z)) ≤ landing e z := by
  have h := monthOf_mono (monthStart_nextMonth_le e z)
  rw [monthOf_monthStart] at h
  exact monthStart_strictMono.monotone h

lemma lt_landing (hm : HasBit e.months 0 12) {z : ℤ} (hno : ¬MonthIn e (monthOf z)) :
    z < landing e z := by
  have h₁ := (monthOf_spec z).2
  have h₂ := monthStart_nextMonth_le_landing e z
  have h₃ := monthStart_strictMono.monotone (Int.add_one_le_iff.mpr (lt_nextMonth hm hno))
  omega

lemma timegm_putField_month (t v : ℤ) :
    timegm (putField (gmtime t) .month v) =
      t + 86400 * (monthStart (monthOf (t / 86400) / 12 * 12 + v) + (mdayOf (t / 86400) - 1) -
        t / 86400) := by
  simp only [timegm, gmtime, putField]
  rw [show 12 * (monthOf (t / 86400) / 12 - 1900 + 1900) + v =
    monthOf (t / 86400) / 12 * 12 + v by ring]
  omega

lemma dcmCronParseAddToField_year (t : ℤ) :
    dcmCronParseAddToField (gmtime t) .year 1 =
      let t' := t + 86400 * (monthStart (monthOf (t / 86400) + 12) + (mdayOf (t / 86400) - 1) -
        t / 86400)
      (decide (t' ≠ -1), gmtime t') := by
  have h : timegm { gmtime t with year := (gmtime t).year + 1 } =
      t + 86400 * (monthStart (monthOf (t / 86400) + 12) + (mdayOf (t / 86400) - 1) -
        t / 86400) := by
    simp only [timegm, gmtime]
    rw [show 12 * (monthOf (t / 86400) / 12 - 1900 + 1 + 1900) + monthOf (t / 86400) % 12 =
      monthOf (t / 86400) + 12 by omega]
    omega
  rw [dcmCronParseAddToField, normalize_eq, h]

lemma moveField_month (hrs : ∀ f ∈ rs, f.IsLow) {val : ℕ} {cal : Tm} {z z' : ℤ}
    (hz : t / 86400 = z) (hz' : monthStart (monthOf z / 12 * 12 + val) + (mdayOf z - 1) = z')
    (h : moveField (gmtime t) .month val rs = some cal) :
    cal = gmtime (resetTimes (t + 86400 * (z' - z)) rs) := by
  obtain ⟨c, hc, hcal⟩ := Option.bind_eq_some_iff.mp h
  rw [dcmCronParseSetField, normalize_eq, timegm_putField_month, hz, hz'] at hc
  obtain ⟨-, rfl⟩ := checked_eq_some hc
  exact checked_dcmCronParseResetAllMin hrs hcal

/-- The roll-over leads to January of the next year, on the day that the new year has for it. -/
lemma january_of_rollOver (z : ℤ) :
    let z₁ := monthStart (monthOf z + 12) + (mdayOf z - 1)
    let z₂ := monthStart (monthOf z₁ / 12 * 12) + (mdayOf z₁ - 1)
    monthOf z₂ = monthOf z / 12 * 12 + 12 ∧ mdayOf z₂ = mdayOf z₁ := by
  intro z₁ z₂
  obtain ⟨hlo, hhi⟩ := mdayOf_bounds z
  obtain ⟨hlo₁, hhi₁⟩ := mdayOf_bounds z₁
  have hmonth : monthOf z₁ = _ := monthOf_mday (k := monthOf z + 12) hlo hhi
  have hyear : monthOf z₁ / 12 * 12 = monthOf z / 12 * 12 + 12 := by
    rw [hmonth]
    split_ifs with hfits
    · omega
    · have hdec : monthOf z % 12 ≠ 11 := fun hdec => by
        have := monthStart_succ_of_long (k := monthOf z + 12) (Or.inr (by omega))
        omega
      omega
  have hjan : monthOf z₂ = _ := monthOf_mday (k := monthOf z₁ / 12 * 12) hlo₁ hhi₁
  rw [if_pos (by
    have := monthStart_succ_of_long (k := monthOf z₁ / 12 * 12) (Or.inl (by omega))
    omega)] at hjan
  refine ⟨by rw [hjan, hyear], ?_⟩
  have hmday : mdayOf z₂ = z₂ - monthStart (monthOf z₂) + 1 := rfl
  rw [hmday, hjan]
  simp only [z₂]
  ring

/-- The search of a month. -/
theorem dcmCronParseFindNext_month (hm : HasBit e.months 0 12) (hrs : ∀ f ∈ rs, f.IsLow)
    {next : ℕ} {cal : Tm}
    (h : dcmCronParseFindNext e.months 12 (monthOf (t / 86400) % 12).toNat (gmtime t) .month .year
      rs = some (next, cal)) :
    (MonthIn e (monthOf (t / 86400)) ∧ next = (monthOf (t / 86400) % 12).toNat ∧
        cal = gmtime t) ∨
      (¬MonthIn e (monthOf (t / 86400)) ∧ next ≠ (monthOf (t / 86400) % 12).toNat ∧
        cal = gmtime (resetTimes (t + 86400 * (monthMove e (t / 86400) - t / 86400)) rs) ∧
        next = (nextMonth e (monthOf (t / 86400)) % 12).toNat) := by
  generalize hz : t / 86400 = z at *
  obtain ⟨hlo, hhi⟩ := mdayOf_bounds z
  have hzend := (monthOf_spec z).2
  obtain ⟨v, hv⟩ : ∃ v : ℕ, monthOf z % (12 : ℕ) = v := ⟨(monthOf z % 12).toNat, by omega⟩
  have hv' : (monthOf z % 12).toNat = v := by omega
  rw [hv', dcmCronParseFindNext] at h
  rw [hv']
  split at h
  · rename_i next' hfound
    obtain ⟨hle, hlt, hbit, hskip⟩ := nextSetBit_eq_some hfound
    have hunit := nextUnit_of_found hv hfound
    by_cases hne : next' = v
    · rw [if_neg (by simpa using hne)] at h
      obtain ⟨rfl, rfl⟩ := Prod.mk.inj (Option.some.inj h)
      left
      refine ⟨?_, hne, rfl⟩
      rw [MonthIn, InSet, hv', ← hne]
      exact hbit
    · rw [if_pos hne] at h
      obtain ⟨c, hc, heq⟩ := Option.map_eq_some_iff.mp h
      obtain ⟨rfl, rfl⟩ := Prod.mk.inj heq
      have hw := nextMonth_of_nextUnit hunit
      have hlt' : z < monthStart (nextMonth e (monthOf z)) :=
        hzend.trans_le (monthStart_strictMono.monotone (by omega))
      have hmove : monthMove e z = monthStart (nextMonth e (monthOf z)) + (mdayOf z - 1) := by
        simp only [monthMove]
        rw [if_pos (by omega)]
      right
      refine ⟨?_, hne, ?_, ?_⟩
      · rw [MonthIn, InSet, hv', hskip v le_rfl (by omega)]
        exact Bool.false_ne_true
      · refine moveField_month hrs hz ?_ hc
        rw [hmove, hw]
        congr 2
        omega
      · rw [hw]
        exact (place_toNat hv hlt).symm
  · -- the roll-over: the year is advanced and the month set to January before the second search
    rename_i hnone
    obtain ⟨next', hfound⟩ := exists_nextSetBit_zero hm
    obtain ⟨-, hlt, -, -⟩ := nextSetBit_eq_some hfound
    obtain ⟨hnext, hunit⟩ := nextUnit_of_wrapped hv hnone hfound
    have hw := nextMonth_of_nextUnit hunit
    have hjan := january_of_rollOver z
    have hmove : monthMove e z = monthStart (nextMonth e (monthOf z)) +
        (mdayOf (monthStart (monthOf z + 12) + (mdayOf z - 1)) - 1) := by
      simp only [monthMove]
      rw [if_neg (by omega)]
    obtain ⟨c₁, h₁, h⟩ := Option.bind_eq_some_iff.mp h
    rw [dcmCronParseAddToField_year, hz] at h₁
    obtain ⟨-, rfl⟩ := checked_eq_some h₁
    obtain ⟨c₂, h₂, h⟩ := Option.bind_eq_some_iff.mp h
    have hlt₁ : z < monthStart (nextMonth e (monthOf z)) :=
      hzend.trans_le (monthStart_strictMono.monotone (by omega))
    generalize monthStart (monthOf z + 12) + (mdayOf z - 1) = z₁ at hjan hmove h₂
    obtain ⟨hlo₁, -⟩ := mdayOf_bounds z₁
    have hz₁ : (t + 86400 * (z₁ - z)) / 86400 = z₁ := by omega
    rw [dcmCronParseResetMin, normalize_eq, if_neg (by decide), timegm_putField_month, hz₁,
      add_zero] at h₂
    obtain ⟨-, rfl⟩ := checked_eq_some h₂
    dsimp only at hjan
    generalize monthStart (monthOf z₁ / 12 * 12) + (mdayOf z₁ - 1) = z₂ at hjan h
    have hz₂ : t + 86400 * (z₁ - z) + 86400 * (z₂ - z₁) = t + 86400 * (z₂ - z) := by ring
    rw [hz₂] at h
    simp only [hfound, ne_eq, (show next' ≠ v by omega), not_false_eq_true, if_true] at h
    obtain ⟨c, hc, heq⟩ := Option.map_eq_some_iff.mp h
    obtain ⟨rfl, rfl⟩ := Prod.mk.inj heq
    right
    refine ⟨?_, by omega, ?_, ?_⟩
    · rw [MonthIn, InSet, hv', nextSetBit_eq_none hnone le_rfl (by omega)]
      exact Bool.false_ne_true
    · have hz' : monthStart (monthOf z₂ / 12 * 12 + next') + (mdayOf z₂ - 1) = monthMove e z := by
        rw [hmove, hw, hjan.1, hjan.2]
        congr 2
        omega
      have hend := moveField_month hrs (show (t + 86400 * (z₂ - z)) / 86400 = z₂ by omega) hz' hc
      rwa [show t + 86400 * (z₂ - z) + 86400 * (monthMove e z - z₂) =
        t + 86400 * (monthMove e z - z) by ring] at hend
    · rw [hw]
      exact (place_wrap_toNat hv hlt).symm

end DcmAgent.Cron
