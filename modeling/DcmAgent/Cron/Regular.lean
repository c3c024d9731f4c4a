import Mathlib.Tactic
import DcmAgent.Cron.RoundTrip
import DcmAgent.Cron.Complete
import DcmAgent.Cron.Sound

/-!
# Patterns whose next firing is the next one

The searches for the next firing go wrong in a few situations only: two seconds in one minute, a day
of the month together with a day of the week, a day of the month that a month does not have. The
patterns that avoid them are the ones in use, as `15 2 * * SUN` or `*/20 * * * *`. For these the
result of `dcmCronParseGetNext` is the least firing of the abstract expression after the date.
-/

namespace DcmAgent.Cron

open Library

variable {x : CronExp} {e : DcmCronExpr} {date t z : ℤ}

/-! ### Firings of an expression -/

/-- The fields of the broken-down time are in the fields of the expression. -/
structure CronExp.FiresAt (x : CronExp) (t : ℤ) : Prop where
  second : x.seconds.elim ((gmtime t).sec = 0) (·.Hits (gmtime t).sec.toNat)
  minute : x.minutes.Hits (gmtime t).min.toNat
  hour : x.hours.Hits (gmtime t).hour.toNat
  dayOfMonth : dayHits x.daysOfMonth (gmtime t).mday.toNat
  month : x.months.Hits ((gmtime t).mon.toNat + 1)
  dayOfWeek : ∃ d, dayHits x.daysOfWeek d ∧ (gmtime t).wday.toNat = d % 7

/-- An expression fires when the pattern that denotes it matches. -/
lemma CronExp.Denotes.firesAt_iff (h : x.Denotes e) : x.FiresAt t ↔ Matches e t := by
  have hsec : x.seconds.elim ((gmtime t).sec = 0) (·.Hits (gmtime t).sec.toNat) ↔
      x.seconds.elim ((gmtime t).sec.toNat = 0) (·.Hits (gmtime t).sec.toNat) := by
    have := (gmtime_bounds t).1.1
    cases x.seconds with
    | none => simp only [Option.elim_none]; omega
    | some f => rfl
  constructor
  · intro hf
    exact ⟨⟨(h.seconds _).mpr (hsec.mp hf.second), (h.minutes _).mpr hf.minute,
      (h.hours _).mpr hf.hour⟩, (h.daysOfMonth _).mpr hf.dayOfMonth, (h.months _).mpr hf.month,
      (h.daysOfWeek _).mpr hf.dayOfWeek⟩
  · intro hm
    exact ⟨hsec.mpr ((h.seconds _).mp hm.sec), (h.minutes _).mp hm.min, (h.hours _).mp hm.hour,
      (h.daysOfMonth _).mp hm.mday, (h.months _).mp hm.mon, (h.daysOfWeek _).mp hm.wday⟩

/-! ### Regular expressions -/

/-- Days of the week in every month, days of the month in every month, or days up to the
twenty-eighth in some months. -/
inductive CronExp.RegularDays (x : CronExp) : Prop where
  | weekly (days : ∀ d, 1 ≤ d → d ≤ 31 → dayHits x.daysOfMonth d)
      (months : ∀ m, 1 ≤ m → m ≤ 12 → x.months.Hits m)
  | monthly (weekdays : ∀ d, d < 7 → dayHits x.daysOfWeek d)
      (months : ∀ m, 1 ≤ m → m ≤ 12 → x.months.Hits m)
  | yearly (weekdays : ∀ d, d < 7 → dayHits x.daysOfWeek d)
      (days : ∀ d, dayHits x.daysOfMonth d → d ≤ 28)

structure CronExp.Regular (x : CronExp) : Prop where
  days : x.RegularDays
  second : ∀ f ∈ x.seconds, ∀ m n, f.Hits m → f.Hits n → m = n

/-- What the searches need of a pattern. A later day that they move to is in the pattern and has
another number, and they leave the month of a day only if every month has that day. -/
structure DcmCronExpr.Regular (e : DcmCronExpr) : Prop where
  second : ∀ m n, dcmCronParseGetBit e.seconds m = true → dcmCronParseGetBit e.seconds n = true →
    m = n
  found : ∀ z, DayIn e (nextDay e z)
  moved : ∀ z, mdayOf (nextDay e z) = mdayOf z → nextDay e z = z
  short : ∀ z, MonthIn e (monthOf (nextDay e z)) ∨ mdayOf (nextDay e z) ≤ 28
  recurs : ∀ z, ∃ w, z ≤ w ∧ DayIn e w ∧ MonthIn e (monthOf w) ∧ monthOf w ≤ monthOf z + 24

/-! ### Days -/

lemma dayIn_nextDay {w : ℤ} (hz : z ≤ w) (hw : w < z + 366) (hday : DayIn e w) :
    DayIn e (nextDay e z) := by
  have hfind : ∀ (n : ℕ) (z : ℤ), z ≤ w → w < z + n → DayIn e (findDay e n z) := by
    intro n
    induction n with
    | zero =>
      intro z hz hw
      omega
    | succ n ih =>
      intro z hz hw
      rw [findDay]
      split_ifs with hin
      · exact hin
      · have hne : z ≠ w := fun heq => hin (heq ▸ hday)
        exact ih (z + 1) (by omega) (by push_cast at hw; omega)
  exact hfind 366 z hz hw

/-- Two days with the same number lie in different months. -/
lemma mdayOf_eq_far {w : ℤ} (h : mdayOf w = mdayOf z) (hlt : z < w) : z + 28 ≤ w := by
  have hk : monthOf z ≤ monthOf w := monthOf_mono hlt.le
  have hz := monthStart_add_mdayOf z
  have hw := monthStart_add_mdayOf w
  rcases hk.eq_or_lt with heq | hlt'
  · rw [heq] at hz
    omega
  · have hlen := (monthStart_succ (monthOf z)).1
    have hmono := monthStart_strictMono.monotone (show monthOf z + 1 ≤ monthOf w by omega)
    omega

/-- The `d`-th day of a month that is long enough for it. -/
lemma monthOf_day {k d : ℤ} (hd : 1 ≤ d) (hlen : d ≤ monthStart (k + 1) - monthStart k) :
    monthOf (monthStart k + (d - 1)) = k ∧ mdayOf (monthStart k + (d - 1)) = d := by
  have hk : monthOf (monthStart k + (d - 1)) = k := monthOf_eq_iff.mpr ⟨by omega, by omega⟩
  refine ⟨hk, ?_⟩
  rw [mdayOf, hk]
  omega

/-- Every day of the month comes within 366 days. -/
lemma exists_mday_within (z : ℤ) {d : ℤ} (hd : 1 ≤ d) (hd' : d ≤ 31) :
    ∃ w, z ≤ w ∧ w < z + 366 ∧ mdayOf w = d := by
  obtain ⟨hlo, hhi⟩ := monthOf_spec z
  obtain ⟨k, hk⟩ : ∃ k, monthOf z = k := ⟨_, rfl⟩
  rw [hk] at hlo hhi
  by_cases hdec : k % 12 = 11
  · -- January comes next
    have hjan := monthStart_succ_of_long (k := k + 1) (Or.inl (by omega))
    have hlen := (monthStart_succ k).2
    have hlong : d ≤ monthStart (k + 1 + 1) - monthStart (k + 1) := by omega
    obtain ⟨-, hmday⟩ := monthOf_day hd hlong
    exact ⟨_, by omega, by omega, hmday⟩
  · -- December of the same year
    have hlong := monthStart_succ_of_long (k := 12 * (k / 12) + 11) (Or.inr (by omega))
    have hyear := monthStart_add_year (k / 12)
    have hstart := monthStart_strictMono.monotone (show 12 * (k / 12) ≤ k by omega)
    have hle := monthStart_strictMono.monotone (show k + 1 ≤ 12 * (k / 12) + 11 by omega)
    rw [show 12 * (k / 12) + 11 + 1 = 12 * (k / 12 + 1) by ring] at hlong
    have hlen : d ≤ monthStart (12 * (k / 12) + 11 + 1) - monthStart (12 * (k / 12) + 11) := by
      rw [show 12 * (k / 12) + 11 + 1 = 12 * (k / 12 + 1) by ring]
      omega
    obtain ⟨-, hmday⟩ := monthOf_day hd hlen
    exact ⟨_, by omega, by omega, hmday⟩

lemma monthOf_le_of_lt {w : ℤ} (h : w ≤ z + 366) : monthOf w ≤ monthOf z + 24 := by
  obtain ⟨-, hhi⟩ := monthOf_spec z
  have h₁ := monthStart_mean (monthOf z + 1)
  have h₂ := monthStart_mean (monthOf z + 24 + 1)
  have hlt : w < monthStart (monthOf z + 24 + 1) := by omega
  have := lt_monthStart_iff.mp hlt
  omega

/-! ### Regular expressions have regular patterns -/

section

variable (hwf : e.WellFormed) (hx : x.Denotes e)
include hx

lemma monthIn_of_hits (h : ∀ m, 1 ≤ m → m ≤ 12 → x.months.Hits m) (k : ℤ) : MonthIn e k :=
  (hx.months _).mpr (h _ (by omega) (by omega))

lemma weekdayIn_of_hits (h : ∀ d, d < 7 → dayHits x.daysOfWeek d) (z : ℤ) :
    InSet e.daysOfWeek (wdayOf z) := by
  have hlt : (wdayOf z).toNat < 7 := by
    unfold wdayOf
    omega
  exact (hx.daysOfWeek _).mpr ⟨_, h _ hlt, (Nat.mod_eq_of_lt hlt).symm⟩

include hwf

lemma DcmCronExpr.Regular.of_weekly
    (hsecond : ∀ m n, dcmCronParseGetBit e.seconds m = true →
      dcmCronParseGetBit e.seconds n = true → m = n)
    (hdays : ∀ d, 1 ≤ d → d ≤ 31 → dayHits x.daysOfMonth d)
    (hmonths : ∀ m, 1 ≤ m → m ≤ 12 → x.months.Hits m) : e.Regular := by
  have hmonth := monthIn_of_hits hx hmonths
  obtain ⟨d, -, hd, hbit⟩ := hwf.daysOfWeek
  have hweek : ∀ z, ∃ w, z ≤ w ∧ w < z + 7 ∧ DayIn e w := by
    intro z
    refine ⟨z + (d - (z + 4)) % 7, by omega, by omega, ?_, ?_⟩
    · have := mdayOf_bounds (z + (d - (z + 4)) % 7)
      exact (hx.daysOfMonth _).mpr (hdays _ (by omega) (by omega))
    · rwa [InSet, wdayOf, show ((z + (d - (z + 4)) % 7 + 4) % 7).toNat = d by omega]
  have hfound : ∀ z, DayIn e (nextDay e z) := by
    intro z
    obtain ⟨w, hle, hlt, hday⟩ := hweek z
    exact dayIn_nextDay hle (by omega) hday
  refine ⟨hsecond, hfound, fun z heq => ?_, fun z => Or.inl (hmonth _), fun z => ?_⟩
  · obtain ⟨w, hle, hlt, hday⟩ := hweek z
    have hnext : nextDay e z ≤ w := by
      by_contra hlater
      exact not_dayIn_of_lt_findDay hle (not_le.mp hlater) hday
    rcases (le_nextDay e z).eq_or_lt with hself | hlater
    · exact hself.symm
    · have := mdayOf_eq_far heq hlater
      omega
  · obtain ⟨w, hle, hlt, hday⟩ := hweek z
    exact ⟨w, hle, hday, hmonth _, monthOf_le_of_lt (by omega)⟩

lemma DcmCronExpr.Regular.of_monthly
    (hsecond : ∀ m n, dcmCronParseGetBit e.seconds m = true →
      dcmCronParseGetBit e.seconds n = true → m = n)
    (hweekdays : ∀ d, d < 7 → dayHits x.daysOfWeek d)
    (hmonths : (∀ m, 1 ≤ m → m ≤ 12 → x.months.Hits m) ∨ ∀ d, dayHits x.daysOfMonth d → d ≤ 28) :
    e.Regular := by
  have hweekday := weekdayIn_of_hits hx hweekdays
  obtain ⟨d, hd, hd', hbit⟩ := hwf.daysOfMonth
  have hdayIn : ∀ w, mdayOf w = d → DayIn e w := by
    intro w hw
    refine ⟨?_, hweekday w⟩
    rwa [InSet, hw, Int.toNat_natCast]
  have hfound : ∀ z, DayIn e (nextDay e z) := by
    intro z
    obtain ⟨w, hle, hlt, hmday⟩ := exists_mday_within z (d := d) (by omega) (by omega)
    exact dayIn_nextDay hle hlt (hdayIn w hmday)
  refine ⟨hsecond, hfound, fun z heq => ?_, fun z => ?_, fun z => ?_⟩
  · refine nextDay_eq_self_iff.mpr ⟨?_, hweekday z⟩
    rw [← heq]
    exact (hfound z).1
  · refine hmonths.imp (fun hmonths => monthIn_of_hits hx hmonths _) fun hdays => ?_
    have := hdays _ ((hx.daysOfMonth _).mp (hfound z).1)
    omega
  · rcases hmonths with hmonths | hdays
    · obtain ⟨w, hle, hlt, hmday⟩ := exists_mday_within z (d := d) (by omega) (by omega)
      exact ⟨w, hle, hdayIn w hmday, monthIn_of_hits hx hmonths _, monthOf_le_of_lt hlt.le⟩
    · -- the day in the first month of the pattern that comes later
      have hunit := exists_nextUnit_month hwf.months (monthOf z + 1)
      obtain ⟨k, hk⟩ : ∃ k, nextMonth e (monthOf z + 1) = k := ⟨_, rfl⟩
      rw [hk] at hunit
      have hshort := hdays d ((hx.daysOfMonth _).mp hbit)
      have hlen := (monthStart_succ k).1
      obtain ⟨hmonth, hmday⟩ := monthOf_day (k := k) (d := d) (by omega) (by omega)
      have hstart := monthStart_strictMono.monotone hunit.le
      have hspec := (monthOf_spec z).2
      have hlt := hunit.lt
      refine ⟨_, by omega, hdayIn _ hmday, ?_, by rw [hmonth]; omega⟩
      rw [hmonth]
      exact hunit.mem

lemma CronExp.Regular.pattern (h : x.Regular) : e.Regular := by
  have hsecond : ∀ m n, dcmCronParseGetBit e.seconds m = true →
      dcmCronParseGetBit e.seconds n = true → m = n := by
    intro m n hm hn
    have hm := (hx.seconds m).mp hm
    have hn := (hx.seconds n).mp hn
    cases hf : x.seconds with
    | none =>
      rw [hf] at hm hn
      exact hm.trans hn.symm
    | some f =>
      rw [hf] at hm hn
      exact h.second f hf m n hm hn
  cases h.days with
  | weekly hdays hmonths => exact .of_weekly hwf hx hsecond hdays hmonths
  | monthly hweekdays hmonths => exact .of_monthly hwf hx hsecond hweekdays (Or.inl hmonths)
  | yearly hweekdays hdays => exact .of_monthly hwf hx hsecond hweekdays (Or.inr hdays)

end

/-! ### The next firing -/

namespace DcmCronExpr.Regular

variable (h : e.Regular)
include h

lemma noStale (t : ℤ) : NoStale e t := fun z _ hstale => hstale.1 (h.moved z hstale.2.1)

lemma not_skipsMonth (dot z : ℤ) : ¬SkipsMonth e dot z := by
  rintro ⟨⟨-, hmonth⟩, -, hlen, -⟩
  have hshort := (h.short z).resolve_left hmonth
  have := (monthStart_succ (nextMonth e (monthOf (nextDay e z)))).1
  omega

lemma not_skipsSecond (t : ℤ) : ¬SkipsSecond e t := by
  rintro ⟨⟨-, ⟨s, hs, hlow, hin⟩, s', hhigh, -, hin'⟩, -⟩
  have := h.second _ _ hin hin'
  omega

/-- The pattern matches at a time within the next three years. -/
lemma exists_matches (hwf : e.WellFormed) (date : ℤ) :
    ∃ u, date < u ∧ (gmtime u).year ≤ (gmtime date).year + 4 ∧ Matches e u := by
  obtain ⟨w, hle, hday, hmonth, hnear⟩ := h.recurs (date / 86400 + 1)
  obtain ⟨s, -, hs, hsec⟩ := hwf.seconds
  obtain ⟨m, -, hm, hmin⟩ := hwf.minutes
  obtain ⟨o, -, ho, hhour⟩ := hwf.hours
  obtain ⟨u, hu⟩ : ∃ u : ℤ, u = 86400 * w + 3600 * o + 60 * m + s := ⟨_, rfl⟩
  have hdayOf : u / 86400 = w := by omega
  have hnext : monthOf (date / 86400 + 1) ≤ monthOf (date / 86400) + 24 :=
    monthOf_le_of_lt (by omega)
  refine ⟨u, by omega, ?_, matches_iff.mpr ⟨⟨?_, ?_, ?_⟩, by rwa [hdayOf], by rwa [hdayOf]⟩⟩
  · simp only [gmtime, hdayOf]
    omega
  · rwa [InSet, gmtime, show (u % 60).toNat = s by omega]
  · rwa [InSet, gmtime, show (u / 60 % 60).toNat = m by omega]
  · rwa [InSet, gmtime, show (u / 3600 % 24).toNat = o by omega]

lemma getNext_ne (hwf : e.WellFormed) (hdate : 0 ≤ date) (hcal : InCalendar date) :
    dcmCronParseGetNext e date ≠ -1 := by
  intro hnone
  obtain ⟨u, hu, hyear, hmatch⟩ := h.exists_matches hwf date
  have hno : ¬SkipsWithin e date := by
    rintro ⟨fresh, t, calls, -, hskip, -⟩
    exact h.not_skipsMonth _ _ hskip
  exact completeAt_of_not_skipsWithin hwf hdate hcal hno hnone u hu hyear hmatch

/-- The search finds the least matching time after the date. -/
lemma isLeast_getNext (hwf : e.WellFormed) (hdate : 0 ≤ date) (hcal : InCalendar date) :
    IsLeast {t | date < t ∧ Matches e t} (dcmCronParseGetNext e date) := by
  have hne := h.getNext_ne hwf hdate hcal
  refine ⟨soundAt_of_noStale hwf hdate (h.noStale date) hne, ?_⟩
  rintro u ⟨hu, hmatch⟩
  have hminimal : MinimalAt e date :=
    minimalAt_of_noSkip hwf hdate hcal ⟨h.not_skipsSecond _, fun _ _ _ _ => h.not_skipsMonth _ _⟩
  by_contra hlt
  exact hminimal hne u hu (not_le.mp hlt) hmatch

end DcmCronExpr.Regular

/-- **The next firing is the next one.** Of a pattern that has been accepted and stands for a
regular expression, the next firing after a date of the calendar is the least time after the date
at which the expression fires. -/
theorem dcmCronParseGetNext_isLeast {expression : List Char} {target : DcmCronExpr}
    (hacc : (dcmCronParseExp expression target).1 = true)
    (hx : x.Denotes (dcmCronParseExp expression target).2) (hreg : x.Regular) (hdate : 0 ≤ date)
    (hcal : InCalendar date) : IsLeast {t | date < t ∧ x.FiresAt t}
      (dcmCronParseGetNext (dcmCronParseExp expression target).2 date) := by
  have hwf := wellFormed_of_accepted hacc
  simp only [hx.firesAt_iff]
  exact (hreg.pattern hwf hx).isLeast_getNext hwf hdate hcal

lemma pos_of_mem_none : ∀ d ∈ (none : Option ℕ), 0 < d := by simp

/-- Every Sunday at a quarter past two. -/
def sundays : CronExp where
  seconds := none
  minutes := ⟨[⟨.single ⟨15, none, by decide, by decide, by simp⟩, none, pos_of_mem_none⟩], by simp⟩
  hours := ⟨[⟨.single ⟨2, none, by decide, by decide, by simp⟩, none, pos_of_mem_none⟩], by simp⟩
  daysOfMonth := none
  months := .star _
  daysOfWeek := some ⟨[⟨.single ⟨0, some "SUN".toList, by decide, by decide, by decide⟩, none,
    pos_of_mem_none⟩], by simp⟩

lemma hits_single {k : FieldKind} {v : Value k} (h : ∀ d ∈ (none : Option ℕ), 0 < d)
    (hne : [⟨.single v, none, h⟩] ≠ ([] : List (Item k))) (n : ℕ) :
    FieldExp.Hits ⟨[⟨.single v, none, h⟩], hne⟩ n ↔ n = v.val := by
  simp only [FieldExp.Hits, List.mem_singleton, exists_eq_left, Item.Hits, Item.bounds]
  simp
  omega

lemma hits_star {k : FieldKind} (n : ℕ) : (FieldExp.star k).Hits n ↔ k.min ≤ n ∧ n ≤ k.max := by
  simp [FieldExp.star, FieldExp.Hits, Item.Hits, Item.bounds]

lemma denotes_sundays : sundays.Denotes (dcmCronParseExp sundays.render .zero).2 := by
  constructor
  · simp only [sundays, Option.elim_none]
    exact getBit_iff_of_lt (by decide +kernel) (by rintro n rfl; decide +kernel)
  · simp only [sundays, hits_single]
    exact getBit_iff_of_lt (by decide +kernel) (by rintro n rfl; decide +kernel)
  · simp only [sundays, hits_single]
    exact getBit_iff_of_lt (by decide +kernel) (by rintro n rfl; decide +kernel)
  · simp only [sundays, dayHits, Option.elim_none]
    have hlen : (dcmCronParseExp sundays.render .zero).2.daysOfMonth.length = 4 := by
      decide +kernel
    refine getBit_iff_of_lt (by decide +kernel) fun n hn => ?_
    have hmax : n ≤ 31 := hn.2
    simp only [sundays] at hlen
    omega
  · simp only [sundays, hits_star]
    have hlen : (dcmCronParseExp sundays.render .zero).2.months.length = 2 := by
      decide +kernel
    refine getBit_iff_of_lt (by decide +kernel) fun n hn => ?_
    have hmax : n + 1 ≤ 12 := hn.2
    simp only [sundays] at hlen
    omega
  · simp only [sundays, dayHits, Option.elim_some, hits_single, exists_eq_left]
    exact getBit_iff_of_lt (by decide +kernel) (by rintro n rfl; decide +kernel)

lemma regular_sundays : sundays.Regular := by
  refine ⟨.weekly (fun d h₁ h₂ => ⟨h₁, h₂⟩) fun m h₁ h₂ => ?_, by simp [sundays]⟩
  exact (hits_star m).mpr ⟨h₁, h₂⟩

/-- From Thursday 1970-01-01, the first firing is on Sunday, January 4. -/
theorem dcmCronParseGetNext_sundays :
    sundays.render = "15 2 ? * SUN".toList ∧
      dcmCronParseGetNext (dcmCronParseExp sundays.render .zero).2 0 = 267300 ∧
      IsLeast {t | 0 < t ∧ sundays.FiresAt t} 267300 := by
  have hnext : dcmCronParseGetNext (dcmCronParseExp sundays.render .zero).2 0 = 267300 := by
    decide +kernel
  refine ⟨by decide +kernel, hnext, ?_⟩
  rw [← hnext]
  exact dcmCronParseGetNext_isLeast (by decide +kernel) denotes_sundays regular_sundays le_rfl
    (by decide +kernel)

end DcmAgent.Cron
