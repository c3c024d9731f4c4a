import Mathlib.Tactic
import DcmAgent.Cron.Minimal

/-!
# No firing within five years is missed

The search gives up when a month search leads past the fifth year. Before that it has passed over
a matching day only in a month that was too short for its day; the search for a pattern of leap
days, for example, runs out after it has skipped one of them.
-/

namespace DcmAgent.Cron

open Library StateTransition

variable {e : DcmCronExpr} {date t u z : ℤ}

/-- There is no next firing only if no time until the end of the fourth year after matches. -/
def CompleteAt (e : DcmCronExpr) (date : ℤ) : Prop :=
  dcmCronParseGetNext e date = -1 →
    ∀ u, date < u → (gmtime u).year ≤ (gmtime date).year + 4 → ¬Matches e u

/-- The search for the next firing skips a month that ends by the fourth year after the date. -/
def SkipsWithin (e : DcmCronExpr) (date : ℤ) : Prop :=
  ∃ fresh t calls, ComesTo e date (.day fresh t calls) ∧
    SkipsMonth e (startYear (searchStart e date)) (t / 86400) ∧
      nextMonth e (monthOf (nextDay e (t / 86400))) / 12 - 1900 ≤ (gmtime date).year + 4

/-! ### A search that skips no month -/

/-- The month search does not go past a day of the pattern, unless it skips its month. -/
lemma monthOf_monthMove_le_of_in (hm : HasBit e.months 0 12) {x : ℤ} (hday : DayIn e x)
    (hmonth : MonthIn e (monthOf x)) (hle : z ≤ x)
    (hskip : ¬(monthStart (nextMonth e (monthOf (nextDay e z)) + 1) -
        monthStart (nextMonth e (monthOf (nextDay e z))) < mdayOf (nextDay e z) ∧
      monthOf x = nextMonth e (monthOf (nextDay e z)))) :
    monthOf (monthMove e (nextDay e z)) ≤ monthOf x := by
  have hnext := nextDay_le hday hle
  have hunit := exists_nextUnit_month hm (monthOf (nextDay e z))
  have hge : nextMonth e (monthOf (nextDay e z)) ≤ monthOf x := by
    by_contra hlt
    exact hunit.skip _ (monthOf_mono hnext) (not_le.mp hlt) hmonth
  rw [monthOf_monthMove hm]
  split_ifs with hfits
  · exact hge
  · have hne : monthOf x ≠ nextMonth e (monthOf (nextDay e z)) := fun heq =>
      hskip ⟨not_le.mp hfits, heq⟩
    omega

/-- Up to a matching day of the years that the search may reach, the months that it leaves lead to
months up to the one of that day. -/
lemma monthMove_le_of_not_skipsWithin (hwf : e.WellFormed) (hno : ¬SkipsWithin e date)
    (hyear : (gmtime u).year ≤ (gmtime date).year + 4) (hmatch : Matches e u) {fresh : Bool}
    {calls : List Pending} (hreach : ComesTo e date (.day fresh t calls))
    (hle : t / 86400 ≤ u / 86400) (hleaves : LeavesMonth e (t / 86400)) :
    InHorizon e (startYear (searchStart e date)) (t / 86400) ∧
      monthOf (monthMove e (nextDay e (t / 86400))) ≤ monthOf (u / 86400) := by
  obtain ⟨-, hday, hmonth⟩ := matches_iff.mp hmatch
  obtain ⟨x, hx⟩ : ∃ x, u / 86400 = x := ⟨_, rfl⟩
  obtain ⟨z, hz⟩ : ∃ z, t / 86400 = z := ⟨_, rfl⟩
  have hyear' : monthOf x / 12 ≤ startYear (searchStart e date) + 1900 + 4 := by
    have hmono : monthOf (date / 86400) ≤ monthOf (searchStart e date / 86400) :=
      monthOf_mono (Int.ediv_le_ediv (by norm_num) (le_searchStart e date))
    simp only [gmtime, hx] at hyear
    rw [startYear_eq]
    omega
  have hfrom := le_of_reaches_day hwf hreach
  rw [hx] at hday hmonth hle ⊢
  rw [hz] at hleaves hle ⊢
  have hge := le_nextDay e z
  have hnext := monthOf_mono (nextDay_le hday hle)
  have hiff : InHorizon e (startYear (searchStart e date)) z ↔
      monthOf (monthMove e (nextDay e z)) / 12 ≤ startYear (searchStart e date) + 1900 + 4 :=
    inHorizon_iff hwf.months (by omega) (by omega)
  by_cases hskip : monthStart (nextMonth e (monthOf (nextDay e z)) + 1) -
      monthStart (nextMonth e (monthOf (nextDay e z))) < mdayOf (nextDay e z) ∧
    monthOf x = nextMonth e (monthOf (nextDay e z))
  · -- the month is no December, so the month after it is in the same year
    exfalso
    obtain ⟨hshort, hx'⟩ := hskip
    have hmday := (mdayOf_bounds (nextDay e z)).2
    have hdec : nextMonth e (monthOf (nextDay e z)) % 12 ≠ 11 := fun h => by
      have := monthStart_succ_of_long (Or.inr h)
      omega
    have hmove := monthOf_monthMove hwf.months (nextDay e z)
    rw [if_neg (not_le.mpr hshort)] at hmove
    have hhor := hiff.mpr (by omega)
    refine hno ⟨fresh, t, calls, hreach, ?_⟩
    rw [hz]
    refine ⟨⟨hleaves, hhor, hshort, x, hx', hday⟩, ?_⟩
    simp only [gmtime, hx] at hyear ⊢
    omega
  · have hmove := monthOf_monthMove_le_of_in hwf.months hday hmonth hle hskip
    exact ⟨hiff.mpr (by omega), hmove⟩

lemma completeAt_of_not_skipsWithin (hwf : e.WellFormed) (hdate : 0 ≤ date)
    (hcal : InCalendar date) (hno : ¬SkipsWithin e date) : CompleteAt e date := by
  intro hnone u hu hyear hmatch
  have hlead : LeadsTo e (startYear (searchStart e date)) (.call (searchStart e date) [])
      (u / 86400) := by
    refine ⟨(matches_iff.mp hmatch).2.1, fun fresh t calls hreach hle hleaves _ => ?_⟩
    rw [landing]
    exact (monthStart_strictMono.monotone
      (monthMove_le_of_not_skipsWithin hwf hno hyear hmatch hreach hle hleaves).2).trans
      (monthOf_spec (u / 86400)).1
  have hent : EntersBy e (u / 86400) (searchStart e date) := fun μ hμ => by
    have := hμ.le_of_matches (searchStart_le hu) hmatch
    omega
  rcases getNext_cases hwf hdate hcal.time with ⟨-, hout⟩ | ⟨hlt, -⟩
  · -- the day that the search leaves for the last time is not behind the matching one
    obtain ⟨fresh, t, calls, hreach, hleaves, hhor⟩ := (comesTo_out_iff hwf).mp hout
    have hby := hlead.by hwf trivial hent hreach
    exact hhor (monthMove_le_of_not_skipsWithin hwf hno hyear hmatch hreach hby.2 hleaves).1
  · omega

/-! ### A search that has skipped a month -/

lemma not_completeAt_of_skipsWithin (hwf : e.WellFormed) (hdate : 0 ≤ date)
    (hcal : InCalendar date) (hruns : RunsOut e date) (hskip : SkipsWithin e date) :
    ¬CompleteAt e date := by
  obtain ⟨fresh, t, calls, hreach, hskip, hyear⟩ := hskip
  obtain ⟨u, hlt, -, hmatch, hmonth⟩ := hskip.exists_matches hwf
  have hfrom := le_of_reaches_day hwf hreach
  have hle := le_searchStart e date
  intro hcomplete
  rcases getNext_cases hwf hdate hcal.time with ⟨hnone, -⟩ | ⟨-, hend⟩
  · refine hcomplete hnone u (by omega) ?_ hmatch
    simp only [gmtime] at hyear ⊢
    rw [hmonth]
    exact hyear
  · exact hend.not_runsOut hwf hruns

/-- **No firing within five years is missed.** For an accepted pattern and every date of the
calendar, the search misses no matching time until the end of the fourth year after if and only if
it does not run out of years after it has skipped a month there. -/
theorem completeAt_iff_not_skipsWithin {expression : List Char} {target : DcmCronExpr}
    (hacc : (dcmCronParseExp expression target).1 = true) {date : ℤ} (hdate : 0 ≤ date)
    (hcal : InCalendar date) :
    CompleteAt (dcmCronParseExp expression target).2 date ↔
      ¬(RunsOut (dcmCronParseExp expression target).2 date ∧
        SkipsWithin (dcmCronParseExp expression target).2 date) := by
  have hwf := wellFormed_of_accepted hacc
  generalize (dcmCronParseExp expression target).2 = e at hwf ⊢
  constructor
  · rintro hcomplete ⟨hruns, hskip⟩
    exact not_completeAt_of_skipsWithin hwf hdate hcal hruns hskip hcomplete
  · intro h
    by_cases hskip : SkipsWithin e date
    · intro hnone
      rcases getNext_cases hwf hdate hcal.time with ⟨-, hout⟩ | ⟨hlt, -⟩
      · exact absurd ⟨(comesTo_out_iff hwf).mp hout, hskip⟩ h
      · omega
    · exact completeAt_of_not_skipsWithin hwf hdate hcal hskip

/-- February 30 never comes, and no month is skipped for it. -/
theorem completeAt_february_thirty :
    CompleteAt (dcmCronParseExp "0 0 30 2 *".toList .zero).2 1676437200 := by
  apply (completeAt_iff_not_skipsWithin (by decide +kernel) (by norm_num) (by decide +kernel)).mpr
  rintro ⟨-, fresh, t, calls, -, ⟨-, -, -, x, hx, hday⟩, -⟩
  have hdays : ∀ d : Fin 32, dcmCronParseGetBit
      (dcmCronParseExp "0 0 30 2 *".toList .zero).2.daysOfMonth d = true → d = 30 := by
    decide +kernel
  have hmonths : ∀ m : Fin 12, dcmCronParseGetBit
      (dcmCronParseExp "0 0 30 2 *".toList .zero).2.months m = true → m = 1 := by
    decide +kernel
  have hwf : (dcmCronParseExp "0 0 30 2 *".toList .zero).2.WellFormed :=
    wellFormed_of_accepted (by decide +kernel)
  have hmonth := (exists_nextUnit_month hwf.months
    (monthOf (nextDay (dcmCronParseExp "0 0 30 2 *".toList .zero).2 (t / 86400)))).mem
  rw [← hx] at hmonth
  have hfeb := hmonths ⟨(monthOf x % 12).toNat, by omega⟩ hmonth
  have hthirty := hdays ⟨(mdayOf x).toNat, by have := mdayOf_bounds x; omega⟩ hday.1
  have hlen := monthStart_succ_february (k := monthOf x)
  have hmday := mdayOf_le x
  simp only [Fin.ext_iff] at hfeb hthirty
  norm_num at hfeb hthirty
  omega

/-- From 2096-01-31, a pattern for the 29th and the 31st of February has no firing: the search
skips 2096-02-29, and the year 2100 has no leap day. -/
theorem leap_day_missed :
    (dcmCronParseExp "0 0 29,31 2 *".toList .zero).1 = true ∧
      dcmCronParseGetNext (dcmCronParseExp "0 0 29,31 2 *".toList .zero).2 3978806400 = -1 ∧
      Matches (dcmCronParseExp "0 0 29,31 2 *".toList .zero).2 3981312000 ∧
      ¬CompleteAt (dcmCronParseExp "0 0 29,31 2 *".toList .zero).2 3978806400 := by
  have hnone : dcmCronParseGetNext (dcmCronParseExp "0 0 29,31 2 *".toList .zero).2 3978806400 =
      -1 := by decide +kernel
  have hmatch : Matches (dcmCronParseExp "0 0 29,31 2 *".toList .zero).2 3981312000 := by
    decide +kernel
  refine ⟨by decide +kernel, hnone, hmatch, fun hcomplete => ?_⟩
  exact hcomplete hnone 3981312000 (by norm_num) (by decide +kernel) hmatch

end DcmAgent.Cron
