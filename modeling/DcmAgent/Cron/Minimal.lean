import Mathlib.Tactic
import DcmAgent.Cron.Answer

/-!
# No firing is skipped

The search passes over a matching time in two ways. The seconds are not among the resets when they
have been moved, so a later move of a higher field leaves them where they are (`SkipsSecond`). And
a month that is too short for the current day is passed over with all its days (`SkipsMonth`). No
other step passes over a matching time.
-/

namespace DcmAgent.Cron

open Library StateTransition

variable {e : DcmCronExpr} {dot date start t t₁ u a w z : ℤ} {c : Config} {fresh : Bool}
  {calls : List Pending}

/-- No time before the next firing matches. -/
def MinimalAt (e : DcmCronExpr) (date : ℤ) : Prop :=
  dcmCronParseGetNext e date ≠ -1 →
    ∀ u, date < u → u < dcmCronParseGetNext e date → ¬Matches e u

/-! ### What is skipped -/

/-- The second is not in the set, but a smaller and a larger one are. -/
def InGap (e : DcmCronExpr) (t : ℤ) : Prop :=
  ¬InSet e.seconds (t % 60) ∧ (∃ s, 0 ≤ s ∧ s < t % 60 ∧ InSet e.seconds s) ∧
    ∃ s, t % 60 < s ∧ s < 60 ∧ InSet e.seconds s

/-- The day that the first move of the day or of the month leads to. -/
def restartDay (e : DcmCronExpr) (z : ℤ) : ℤ :=
  if LeavesMonth e z then landing e (nextDay e z) else nextDay e z

/-- The minute that the first move of a field above the seconds leads to matches. -/
def LandsOnMatch (e : DcmCronExpr) (t : ℤ) : Prop :=
  if ¬InSet e.minutes (t / 60 % 60) then
    ∃ w, NextUnit e.minutes 60 (t / 60) w ∧ MinuteMatches e w
  else if ¬InSet e.hours (t / 3600 % 24) then
    ∃ w, NextUnit e.hours 24 (t / 3600) w ∧ MinuteMatches e (60 * w)
  else MinuteMatches e (1440 * restartDay e (t / 86400))

/-- The seconds are moved forward within their minute, past smaller ones of the pattern, and then
the minute is left for one that matches. -/
def SkipsSecond (e : DcmCronExpr) (t : ℤ) : Prop :=
  InGap e t ∧ ¬MinuteMatches e (t / 60) ∧ LandsOnMatch e t

/-- The month search leaves the day that the day search ends at for a month that is too short for
it, and a day of that month matches. -/
def SkipsMonth (e : DcmCronExpr) (dot z : ℤ) : Prop :=
  LeavesMonth e z ∧ InHorizon e dot z ∧
    monthStart (nextMonth e (monthOf (nextDay e z)) + 1) -
      monthStart (nextMonth e (monthOf (nextDay e z))) < mdayOf (nextDay e z) ∧
    ∃ x, monthOf x = nextMonth e (monthOf (nextDay e z)) ∧ DayIn e x

/-- The search for the next firing skips nothing. -/
structure NoSkip (e : DcmCronExpr) (date : ℤ) : Prop where
  second : ¬SkipsSecond e (searchStart e date)
  month : ∀ fresh t calls, ComesTo e date (.day fresh t calls) →
    ¬SkipsMonth e (startYear (searchStart e date)) (t / 86400)

/-! ### Seconds -/

lemma landsOnMatch_congr (h : t₁ / 60 = t / 60) : LandsOnMatch e t₁ ↔ LandsOnMatch e t := by
  rw [LandsOnMatch, LandsOnMatch, h, show t₁ / 3600 = t / 3600 by omega,
    show t₁ / 86400 = t / 86400 by omega]

/-- The seconds are ready for a move of a higher field, or that move does no harm. -/
lemma second_ready (hw : NextUnit e.seconds 60 t t₁) (h : ¬SkipsSecond e t) :
    t₁ = t ∨ LowSec e t₁ ∨ ¬LandsOnMatch e t₁ ∨ MinuteMatches e (t₁ / 60) := by
  by_cases hstay : t₁ = t
  · exact Or.inl hstay
  by_cases hcarry : t / 60 < t₁ / 60
  · exact Or.inr (Or.inl (lowSec_of_carry hw hcarry))
  have hle := hw.le
  have hmin : t₁ / 60 = t / 60 := by omega
  have hno : ¬InSet e.seconds (t % 60) := hw.skip t le_rfl (by omega)
  by_cases hlow : LowSec e t
  · exact Or.inr (Or.inl (hlow.next hw))
  have hgap : InGap e t := by
    refine ⟨hno, ?_, t₁ % 60, by omega, by omega, hw.mem⟩
    by_contra hsmaller
    exact hlow fun s h0 hs hin => hsmaller ⟨s, h0, hs, hin⟩
  by_cases hmatch : MinuteMatches e (t / 60)
  · rw [hmin]
    exact Or.inr (Or.inr (Or.inr hmatch))
  · refine Or.inr (Or.inr (Or.inl fun hlands => h ⟨hgap, hmatch, ?_⟩))
    exact (landsOnMatch_congr hmin).mp hlands

lemma InGap.minute_eq (hw : NextUnit e.seconds 60 t t₁) (h : InGap e t) :
    t₁ ≠ t ∧ t₁ / 60 = t / 60 := by
  obtain ⟨hno, -, s, hs, hs60, hin⟩ := h
  have hle := hw.le
  refine ⟨fun heq => hno (heq ▸ hw.mem), ?_⟩
  by_contra hne
  refine hw.skip (t - t % 60 + s) (by omega) (by omega) ?_
  rwa [show (t - t % 60 + s) % 60 = s by omega]

lemma secondIn_eq_true_iff : secondIn e t = true ↔ InSet e.seconds (t % 60) := decide_eq_true_iff

/-! ### Days -/

lemma restartDay_of_leaves {z : ℤ} (h : LeavesMonth e z) :
    restartDay e z = landing e (nextDay e z) := if_pos h

lemma restartDay_of_not_leaves {z : ℤ} (h : ¬LeavesMonth e z) : restartDay e z = nextDay e z :=
  if_neg h

/-- The day search leaves a day that is not of the pattern, unless the month search does. -/
lemma nextDay_ne_of_not_leaves (hother : ¬(DayIn e z ∧ MonthIn e (monthOf z)))
    (hleaves : ¬LeavesMonth e z) : nextDay e z ≠ z := by
  intro hstay
  refine hleaves ⟨congrArg mdayOf hstay, fun hmonth => hother ⟨nextDay_eq_self_iff.mp hstay, ?_⟩⟩
  rwa [hstay] at hmonth

lemma lt_restartDay (hm : HasBit e.months 0 12) (hother : ¬(DayIn e z ∧ MonthIn e (monthOf z))) :
    z < restartDay e z := by
  have hle := le_nextDay e z
  by_cases hleaves : LeavesMonth e z
  · rw [restartDay_of_leaves hleaves]
    exact hle.trans_lt (lt_landing hm hleaves.2)
  · rw [restartDay_of_not_leaves hleaves]
    exact lt_of_le_of_ne hle (nextDay_ne_of_not_leaves hother hleaves).symm

/-- The step from a day that is not of the pattern leads to the minute of the restart. -/
lemma dayStep_cases_of_moved (dot : ℤ) (fresh : Bool) (calls : List Pending)
    (hother : ¬(DayIn e (t / 86400) ∧ MonthIn e (monthOf (t / 86400)))) :
    ∃ a, a / 60 = 1440 * restartDay e (t / 86400) ∧ a % 60 = secondAfter fresh t ∧
      (dayStep e dot fresh t calls = .out ∨
        (LeavesMonth e (t / 86400) → InHorizon e dot (t / 86400)) ∧
          (dayStep e dot fresh t calls = .call a calls ∨ dayStep e dot fresh t calls = .found a ∨
            dayStep e dot fresh t calls = .stop a calls)) := by
  have hbounds := secondAfter_bounds fresh t
  by_cases hleaves : LeavesMonth e (t / 86400)
  · refine ⟨86400 * landing e (nextDay e (t / 86400)) + secondAfter fresh t, ?_, by omega, ?_⟩
    · rw [restartDay_of_leaves hleaves]
      omega
    rcases dayStep_cases e dot fresh t calls with ⟨hne, -⟩ | ⟨-, hmonth, -⟩ |
      ⟨-, ⟨hhor, heq⟩ | ⟨-, heq⟩⟩
    · exact absurd hleaves.1 hne
    · exact absurd hmonth hleaves.2
    · exact Or.inr ⟨fun _ => hhor, Or.inl heq⟩
    · exact Or.inl heq
  · have hmoved : dayEnd e fresh t = 86400 * nextDay e (t / 86400) + secondAfter fresh t :=
      dayEnd_of_moved (nextDay_ne_of_not_leaves hother hleaves)
    refine ⟨dayEnd e fresh t, ?_, by omega, Or.inr ⟨fun h => absurd h hleaves, ?_⟩⟩
    · rw [restartDay_of_not_leaves hleaves, hmoved]
      omega
    rcases dayStep_cases e dot fresh t calls with ⟨-, heq⟩ | ⟨-, -, hstops⟩ | ⟨hleaves', -⟩
    · exact Or.inl heq
    · exact Or.inr (hstops.imp And.right And.right)
    · exact absurd hleaves' hleaves

lemma landsOnMatch_iff (h : TodIn e t) :
    LandsOnMatch e t ↔ MinuteMatches e (1440 * restartDay e (t / 86400)) := by
  have hmin : InSet e.minutes (t / 60 % 60) := h.min
  have hhour : InSet e.hours (t / 3600 % 24) := h.hour
  rw [LandsOnMatch, if_neg (not_not.mpr hmin), if_neg (not_not.mpr hhour)]

/-- The days that a restart passes over do not match, unless a month is skipped. -/
lemma not_in_of_lt_restartDay (hm : HasBit e.months 0 12) {z x : ℤ}
    (hhor : LeavesMonth e z → InHorizon e dot z) (hskip : ¬SkipsMonth e dot z) (hzx : z ≤ x)
    (hx : x < restartDay e z) : ¬(DayIn e x ∧ MonthIn e (monthOf x)) := by
  rintro ⟨hday, hmonth⟩
  by_cases hbefore : x < nextDay e z
  · exact not_dayIn_of_lt_findDay hzx hbefore hday
  by_cases hleaves : LeavesMonth e z
  · -- a day between the end of the day search and the first day of the new month
    rw [restartDay_of_leaves hleaves, landing, monthOf_monthMove hm] at hx
    have hunit := exists_nextUnit_month hm (monthOf (nextDay e z))
    have hfrom : monthOf (nextDay e z) ≤ monthOf x := monthOf_mono (not_lt.mp hbefore)
    by_cases hlt : monthOf x < nextMonth e (monthOf (nextDay e z))
    · exact hunit.skip _ hfrom hlt hmonth
    · split_ifs at hx with hfits
      · exact hlt (lt_monthStart_iff.mp hx)
      · have heq := lt_monthStart_iff.mp hx
        exact hskip ⟨hleaves, hhor hleaves, by omega, x, by omega, hday⟩
  · rw [restartDay_of_not_leaves hleaves] at hx
    exact hbefore hx

/-! ### A search that skips nothing -/

/-- The second is one that a move of a higher field may leave, or the minute does not match. -/
def SecondReady (e : DcmCronExpr) (t : ℤ) : Prop :=
  LowSec e t ∨ InSet e.seconds (t % 60) ∧ ¬MinuteMatches e (t / 60)

/-- Nothing has been passed over since `start`. -/
def Config.Unskipped (e : DcmCronExpr) (start : ℤ) : Config → Prop
  | .call t calls => NoMatch e start t ∧ (t = start ∧ calls = [] ∨ SecondReady e t)
  | .day fresh t calls => NoMatch e start t ∧
      (fresh = true ∧ TodIn e t ∨ LowSec e t ∨ calls = [] ∧ InSet e.seconds (t % 60) ∧
        (¬MinuteMatches e (1440 * restartDay e (t / 86400)) ∨ MinuteMatches e (t / 60)))
  | .stop t calls => NoMatch e start t ∧ (LowSec e t ∨ calls = [])
  | .found t => NoMatch e start t
  | .out => True

lemma SecondReady.noMatch (h : SecondReady e a)
    (hno : ∀ μ, t / 60 ≤ μ → μ < a / 60 → ¬MinuteMatches e μ) : NoMatch e t a :=
  noMatch_of_minutes (h.imp_right And.right) hno

/-- The seconds after the second search: in place from the start, the smallest ones of their minute,
or those of the first call. -/
lemma second_cases (hskip : ¬SkipsSecond e start) (hw : NextUnit e.seconds 60 t t₁)
    (h : t = start ∧ calls = [] ∨ SecondReady e t) :
    secondIn e t = true ∨ LowSec e t₁ ∨
      calls = [] ∧ (¬LandsOnMatch e t₁ ∨ MinuteMatches e (t₁ / 60)) := by
  rcases h with ⟨rfl, rfl⟩ | hlow | ⟨hin, -⟩
  · rcases second_ready hw hskip with rfl | hlow | hready
    · exact Or.inl (secondIn_eq_true_iff.mpr hw.mem)
    · exact Or.inr (Or.inl hlow)
    · exact Or.inr (Or.inr ⟨rfl, hready⟩)
  · exact Or.inr (Or.inl (hlow.next hw))
  · exact Or.inl (secondIn_eq_true_iff.mpr hin)

/-- The seconds after the minute or the hour has been moved. -/
lemma secondReady_of_moved (hw : NextUnit e.seconds 60 t t₁)
    (hsec : a % 60 = secondAfter (secondIn e t) t₁)
    (hready : secondIn e t = true ∨ LowSec e t₁ ∨
      calls = [] ∧ (¬LandsOnMatch e t₁ ∨ MinuteMatches e (t₁ / 60)))
    (hland : MinuteMatches e (a / 60) → LandsOnMatch e t₁) (hno : ¬MinuteMatches e (t₁ / 60)) :
    SecondReady e a := by
  rcases hready with hin | hlow | ⟨-, hready⟩
  · exact Or.inl (LowSec.after (Or.inl hin) hsec)
  · exact Or.inl (LowSec.after (Or.inr hlow) hsec)
  · by_cases hin : secondIn e t = true
    · exact Or.inl (LowSec.after (Or.inl hin) hsec)
    · rw [secondAfter, if_neg hin] at hsec
      exact Or.inr ⟨hsec ▸ hw.mem, fun hmatch => (hready.resolve_right hno) (hland hmatch)⟩

/-- The move to another day passes over no matching time. -/
lemma noMatch_restart (hwf : e.WellFormed) (hhor : LeavesMonth e (t / 86400) →
      InHorizon e dot (t / 86400)) (hskip : ¬SkipsMonth e dot (t / 86400))
    (ha : a / 60 = 1440 * restartDay e (t / 86400)) (hready : SecondReady e a) : NoMatch e t a := by
  refine hready.noMatch fun μ hμ hμa hmatch => ?_
  exact not_in_of_lt_restartDay hwf.months hhor hskip (x := μ / 1440) (by omega) (by omega)
    hmatch.2

/-- The seconds after the day has been moved. -/
lemma secondReady_of_day (hsec : a % 60 = secondAfter fresh t)
    (ha : a / 60 = 1440 * restartDay e (t / 86400)) (hno : ¬MinuteMatches e (t / 60))
    (h : fresh = true ∧ TodIn e t ∨ LowSec e t ∨ calls = [] ∧ InSet e.seconds (t % 60) ∧
      (¬MinuteMatches e (1440 * restartDay e (t / 86400)) ∨ MinuteMatches e (t / 60))) :
    SecondReady e a ∧ (LowSec e a ∨ calls = []) := by
  rcases h with ⟨hfresh, -⟩ | hlow | ⟨hcalls, hin, hready⟩
  · have hlow := LowSec.after (e := e) (Or.inl hfresh) hsec
    exact ⟨Or.inl hlow, Or.inl hlow⟩
  · have hlow' := LowSec.after (Or.inr hlow) hsec
    exact ⟨Or.inl hlow', Or.inl hlow'⟩
  · refine ⟨?_, Or.inr hcalls⟩
    by_cases hfresh : fresh = true
    · exact Or.inl (LowSec.after (Or.inl hfresh) hsec)
    · rw [secondAfter, if_neg hfresh] at hsec
      exact Or.inr ⟨hsec ▸ hin, ha ▸ hready.resolve_right hno⟩

section Step

variable (hwf : e.WellFormed) {c' : Config}

include hwf

lemma Config.Unskipped.call (hskip : ¬SkipsSecond e start)
    (h : (Config.call t calls).Unskipped e start) : (callStep e t calls).Unskipped e start := by
  obtain ⟨hno, hstart⟩ := h
  obtain ⟨t₁, hw₁, h'⟩ := callStep_cases hwf t calls
  have hready := second_cases hskip hw₁ hstart
  have hno₁ := hno.trans (noMatch_second hw₁)
  have hbounds := secondAfter_bounds (secondIn e t) t₁
  rcases h' with ⟨w, hw, hlt, heq⟩ | ⟨hmin, w, hw, hlt, heq⟩ | ⟨htod, heq⟩
  · rw [heq]
    have hminute : ∀ ν, t₁ / 60 ≤ ν → ν < w → ¬MinuteMatches e ν := fun ν h₁ h₂ hν =>
      hw.skip ν h₁ h₂ hν.1.1
    have hready' : SecondReady e (60 * w + secondAfter (secondIn e t) t₁) := by
      refine secondReady_of_moved hw₁ (by omega) hready (fun hmatch => ?_) (hminute _ le_rfl hlt)
      rw [show (60 * w + secondAfter (secondIn e t) t₁) / 60 = w by omega] at hmatch
      rw [LandsOnMatch, if_pos (hw.skip _ le_rfl hlt)]
      exact ⟨w, hw, hmatch⟩
    exact ⟨hno₁.trans (hready'.noMatch fun ν h₁ h₂ => hminute ν h₁ (by omega)), Or.inr hready'⟩
  · rw [heq]
    have hhour : ∀ ν, t₁ / 60 ≤ ν → ν < 60 * w → ¬MinuteMatches e ν := fun ν h₁ h₂ hν =>
      hw.skip (ν / 60) (by omega) (by omega) hν.1.2
    have hready' : SecondReady e (3600 * w + secondAfter (secondIn e t) t₁) := by
      refine secondReady_of_moved hw₁ (by omega) hready (fun hmatch => ?_)
        (hhour _ le_rfl (by omega))
      rw [show (3600 * w + secondAfter (secondIn e t) t₁) / 60 = 60 * w by omega] at hmatch
      rw [LandsOnMatch, if_neg (not_not.mpr hmin), if_pos (hw.skip _ le_rfl hlt)]
      exact ⟨w, hw, hmatch⟩
    exact ⟨hno₁.trans (hready'.noMatch fun ν h₁ h₂ => hhour ν h₁ (by omega)), Or.inr hready'⟩
  · rw [heq]
    refine ⟨hno₁, ?_⟩
    rcases hready with hin | hlow | ⟨hcalls, hready⟩
    · exact Or.inl ⟨hin, htod⟩
    · exact Or.inr (Or.inl hlow)
    · rw [landsOnMatch_iff htod] at hready
      exact Or.inr (Or.inr ⟨hcalls, hw₁.mem, hready⟩)

lemma Config.Unskipped.day (hskip : ¬SkipsMonth e dot (t / 86400))
    (h : (Config.day fresh t calls).Unskipped e start) :
    (dayStep e dot fresh t calls).Unskipped e start := by
  obtain ⟨hno, hready⟩ := h
  have hbounds := secondAfter_bounds fresh t
  by_cases hin : DayIn e (t / 86400) ∧ MonthIn e (monthOf (t / 86400))
  · -- the search stays on the day
    have hstay := nextDay_eq_self_iff.mpr hin.1
    have hsame := congrArg mdayOf hstay
    rcases dayStep_cases e dot fresh t calls with ⟨hne, -⟩ | ⟨-, -, ⟨-, heq⟩ | ⟨hother, heq⟩⟩ |
      ⟨hleaves, -⟩
    · exact absurd hsame hne
    · rw [heq, dayEnd_of_in hin.1]
      exact hno
    · rw [dayEnd_of_in hin.1] at heq hother
      rw [heq]
      refine ⟨hno, ?_⟩
      rcases hready with ⟨-, htod⟩ | hlow | ⟨hcalls, -⟩
      · exact absurd (matches_iff.mpr ⟨htod, hin⟩) hother
      · exact Or.inl hlow
      · exact Or.inr hcalls
    · exact absurd (hstay.symm ▸ hin.2) hleaves.2
  · have hother : ¬MinuteMatches e (t / 60) := fun hmatch => hin (by
      rw [show t / 86400 = t / 60 / 1440 by omega]
      exact hmatch.2)
    obtain ⟨a, ha, hsec, heq | ⟨hhor, hstep⟩⟩ := dayStep_cases_of_moved dot fresh calls hin
    · rw [heq]
      trivial
    · obtain ⟨hready', hlow⟩ := secondReady_of_day hsec ha hother hready
      have hno' := hno.trans (noMatch_restart hwf hhor hskip ha hready')
      rcases hstep with heq | heq | heq
      all_goals
        rw [heq]
      · exact ⟨hno', Or.inr hready'⟩
      · exact hno'
      · exact ⟨hno', hlow⟩

lemma Config.Unskipped.step (hsecond : ¬SkipsSecond e start)
    (hmonth : ∀ fresh t calls, c = .day fresh t calls → ¬SkipsMonth e dot (t / 86400))
    (h : c.Unskipped e start) (hstep : searchStep e dot c = some c') : c'.Unskipped e start := by
  match c with
  | .call t calls =>
    obtain rfl := Option.some.inj hstep
    exact h.call hwf hsecond
  | .day fresh t calls =>
    obtain rfl := Option.some.inj hstep
    exact h.day hwf (hmonth fresh t calls rfl)
  | .stop t (waiting :: calls) =>
    obtain rfl := Option.some.inj hstep
    obtain ⟨hno, hlow⟩ := h
    replace hlow := hlow.resolve_right (List.cons_ne_nil _ _)
    obtain ⟨fresh, heq | ⟨w, hw, hlt, heq⟩⟩ := resume_cases hwf t waiting calls
    · rw [heq]
      exact ⟨hno, Or.inr (Or.inl hlow)⟩
    · rw [heq]
      have hbounds := secondAfter_bounds fresh t
      have hsec : (3600 * w + secondAfter fresh t) % 60 = secondAfter fresh t := by omega
      have hready : SecondReady e (3600 * w + secondAfter fresh t) :=
        Or.inl (LowSec.after (Or.inr hlow) hsec)
      refine ⟨hno.trans (hready.noMatch fun ν h₁ h₂ hν => ?_), Or.inr hready⟩
      exact hw.skip (ν / 60) (by omega) (by omega) hν.1.2

end Step

/-- What the search for the next firing has come to without a skip. -/
lemma NoSkip.unskipped (hwf : e.WellFormed) (h : NoSkip e date) (hreach : ComesTo e date c) :
    c.Unskipped e (searchStart e date) := by
  induction hreach with
  | refl => exact ⟨NoMatch.refl e _, Or.inl ⟨rfl, rfl⟩⟩
  | tail hreach hstep ih =>
    refine ih.step hwf h.second (fun fresh t calls heq => ?_) hstep
    exact h.month fresh t calls (heq ▸ hreach)

lemma minimalAt_of_noSkip (hwf : e.WellFormed) (hdate : 0 ≤ date) (hcal : InCalendar date)
    (h : NoSkip e date) : MinimalAt e date := by
  intro hne u hu hur
  rcases getNext_cases hwf hdate hcal.time with ⟨hnone, -⟩ | ⟨-, hend⟩
  · exact absurd hnone hne
  · refine (?_ : NoMatch e (searchStart e date) (dcmCronParseGetNext e date)) u (searchStart_le hu)
      hur
    cases hend with
    | found _ hfound => exact h.unskipped hwf hfound
    | stop _ _ _ hstop => exact (h.unskipped hwf hstop).1

/-! ### A search that skips something -/

/-- A month that is skipped has a matching time. -/
lemma SkipsMonth.exists_matches (hwf : e.WellFormed) (h : SkipsMonth e dot z) :
    ∃ u, z < u / 86400 ∧ u / 86400 < landing e (nextDay e z) ∧ Matches e u ∧
      monthOf (u / 86400) = nextMonth e (monthOf (nextDay e z)) := by
  obtain ⟨hleaves, -, hshort, x, hx, hday⟩ := h
  obtain ⟨s, -, hs, hsec⟩ := hwf.seconds
  obtain ⟨m, -, hm, hmin⟩ := hwf.minutes
  obtain ⟨o, -, ho, hhour⟩ := hwf.hours
  have hlt : z < x := by
    have h₁ := lt_monthStart_iff.mpr (lt_nextMonth hwf.months hleaves.2)
    have h₂ := (monthOf_spec x).1
    rw [hx] at h₂
    exact (le_nextDay e z).trans_lt (h₁.trans_le h₂)
  have hland : x < landing e (nextDay e z) := by
    have hmove := monthOf_monthMove (e := e) hwf.months (nextDay e z)
    rw [if_neg (not_le.mpr hshort)] at hmove
    rw [landing, hmove]
    exact lt_monthStart_iff.mpr (by omega)
  obtain ⟨u, hu⟩ : ∃ u : ℤ, u = 86400 * x + 3600 * o + 60 * m + s := ⟨_, rfl⟩
  have hdayOf : u / 86400 = x := by omega
  refine ⟨u, by rwa [hdayOf], by rwa [hdayOf], matches_iff.mpr ⟨⟨?_, ?_, ?_⟩, by rwa [hdayOf], ?_⟩,
    by rw [hdayOf, hx]⟩
  · rwa [InSet, gmtime, show (u % 60).toNat = s by omega]
  · rwa [InSet, gmtime, show (u / 60 % 60).toNat = m by omega]
  · rwa [InSet, gmtime, show (u / 3600 % 24).toNat = o by omega]
  · rw [hdayOf, hx]
    exact (exists_nextUnit_month hwf.months _).mem

/-- The search goes on behind the month that it skips. -/
lemma exists_passed_of_skipsMonth (hwf : e.WellFormed)
    (hreach : ComesTo e date (.day fresh t calls))
    (h : SkipsMonth e (startYear (searchStart e date)) (t / 86400)) :
    ∃ c u, ComesTo e date c ∧ searchStart e date < u ∧ Matches e u ∧ c.From (u + 1) := by
  obtain ⟨u, hlt, hland, hmatch, -⟩ := h.exists_matches hwf
  have hfrom := le_of_reaches_day hwf hreach
  have hbounds := secondAfter_bounds fresh t
  refine ⟨_, u, hreach.tail rfl, by omega, hmatch, ?_⟩
  rw [dayStep, if_neg (not_not.mpr h.1.1), if_neg h.1.2, if_pos h.2.1]
  simp only [Config.From]
  omega

/-- The smaller second in the minute that a move leads to. -/
lemma SkipsSecond.passes (hw : NextUnit e.seconds 60 t t₁) (h : SkipsSecond e t)
    (hsec : a % 60 = t₁ % 60) (hlt : t / 60 < a / 60) (hmatch : MinuteMatches e (a / 60)) :
    ∃ u, t < u ∧ Matches e u ∧ u < a := by
  obtain ⟨hgap, -, -⟩ := h
  obtain ⟨-, hmin⟩ := hgap.minute_eq hw
  obtain ⟨-, ⟨s, h0, hs, hin⟩, -⟩ := hgap
  have hle := hw.le
  refine ⟨a - a % 60 + s, by omega, matches_iff_minute.mpr ⟨?_, ?_⟩, by omega⟩
  · rwa [show (a - a % 60 + s) % 60 = s by omega]
  · rwa [show (a - a % 60 + s) / 60 = a / 60 by omega]

/-- The search goes on behind the second that it skips. -/
lemma exists_passed_of_skipsSecond (hwf : e.WellFormed) (h : SkipsSecond e t) :
    ∃ c u, Reaches (searchStep e dot) (.call t []) c ∧ t < u ∧ Matches e u ∧ c.From (u + 1) := by
  have hcall : Reaches (searchStep e dot) (.call t []) (callStep e t []) :=
    .single rfl
  obtain ⟨t₁, hw₁, h'⟩ := callStep_cases hwf t []
  obtain ⟨-, hmin⟩ := h.1.minute_eq hw₁
  have hsecond : secondAfter (secondIn e t) t₁ = t₁ % 60 :=
    if_neg fun hin => h.1.1 (secondIn_eq_true_iff.mp hin)
  rw [hsecond] at h'
  have hland := (landsOnMatch_congr hmin).mpr h.2.2
  have hno := h.2.1
  rw [← hmin] at hno
  rcases h' with ⟨w, hw, hlt, heq⟩ | ⟨hminute, w, hw, hlt, heq⟩ | ⟨htod, heq⟩
  · rw [LandsOnMatch, if_pos (hw.skip _ le_rfl hlt)] at hland
    obtain ⟨w', hw', hmatch⟩ := hland
    obtain rfl := hw.unique hw'
    obtain ⟨u, hu, hmatch, hlt'⟩ := h.passes hw₁ (a := 60 * w + t₁ % 60) (by omega) (by omega)
      (by rwa [show (60 * w + t₁ % 60) / 60 = w by omega])
    refine ⟨_, u, hcall, hu, hmatch, ?_⟩
    rw [heq]
    exact hlt'
  · rw [LandsOnMatch, if_neg (not_not.mpr hminute), if_pos (hw.skip _ le_rfl hlt)] at hland
    obtain ⟨w', hw', hmatch⟩ := hland
    obtain rfl := hw.unique hw'
    obtain ⟨u, hu, hmatch, hlt'⟩ := h.passes hw₁ (a := 3600 * w + t₁ % 60) (by omega) (by omega)
      (by rwa [show (3600 * w + t₁ % 60) / 60 = 60 * w by omega])
    refine ⟨_, u, hcall, hu, hmatch, ?_⟩
    rw [heq]
    exact hlt'
  · have hminute : TodMinute e (t₁ / 60) :=
      ⟨htod.min, by rw [show t₁ / 60 / 60 = t₁ / 3600 by omega]; exact htod.hour⟩
    have hother : ¬(DayIn e (t₁ / 86400) ∧ MonthIn e (monthOf (t₁ / 86400))) := fun hin =>
      hno ⟨hminute, by rwa [show t₁ / 60 / 1440 = t₁ / 86400 by omega]⟩
    rw [landsOnMatch_iff htod] at hland
    have hlt := lt_restartDay hwf.months hother
    obtain ⟨a, ha, hsec, hstep⟩ := dayStep_cases_of_moved dot (secondIn e t) [] hother
    obtain ⟨u, hu, hmatch, hlt'⟩ := h.passes hw₁ (hsec.trans hsecond) (by omega) (ha ▸ hland)
    rw [heq] at hcall
    refine ⟨_, u, hcall.tail rfl, hu, hmatch, ?_⟩
    rcases hstep with heq | ⟨-, heq | heq | heq⟩
    all_goals
      rw [heq]
    · trivial
    all_goals
      exact hlt'

/-- A search that skips something passes over a matching time. -/
lemma not_minimalAt_of_skip (hwf : e.WellFormed) (hdate : 0 ≤ date) (hcal : InCalendar date)
    (hruns : ¬RunsOut e date) (hskip : ¬NoSkip e date) : ¬MinimalAt e date := by
  obtain ⟨c, u, hreach, hu, hmatch, hfrom⟩ :
      ∃ c u, ComesTo e date c ∧ searchStart e date < u ∧ Matches e u ∧ c.From (u + 1) := by
    by_contra hnone
    refine hskip ⟨fun h => ?_, fun fresh t calls hday h => ?_⟩
    · exact hnone (exists_passed_of_skipsSecond hwf h)
    · exact hnone (exists_passed_of_skipsMonth hwf hday h)
  intro hminimal
  rcases getNext_cases hwf hdate hcal.time with ⟨-, hout⟩ | ⟨hlt, hend⟩
  · exact hruns ((comesTo_out_iff hwf).mp hout)
  · have hle := hend.le_of_from hwf hreach hfrom
    exact hminimal (by omega) u ((le_searchStart e date).trans_lt hu) (by omega) hmatch

/-- **No firing is skipped.** For an accepted pattern and every date of the calendar, no matching
time is passed over if and only if the search skips nothing or it runs out of years. -/
theorem minimalAt_iff_noSkip {expression : List Char} {target : DcmCronExpr}
    (hacc : (dcmCronParseExp expression target).1 = true) {date : ℤ} (hdate : 0 ≤ date)
    (hcal : InCalendar date) :
    MinimalAt (dcmCronParseExp expression target).2 date ↔
      RunsOut (dcmCronParseExp expression target).2 date ∨
        NoSkip (dcmCronParseExp expression target).2 date := by
  have hwf := wellFormed_of_accepted hacc
  generalize (dcmCronParseExp expression target).2 = e at hwf ⊢
  constructor
  · intro hminimal
    by_contra hneither
    obtain ⟨hruns, hskip⟩ := not_or.mp hneither
    exact not_minimalAt_of_skip hwf hdate hcal hruns hskip hminimal
  · rintro (hruns | hskip)
    · intro hne
      rcases getNext_cases hwf hdate hcal.time with ⟨hnone, -⟩ | ⟨-, hend⟩
      · exact absurd hnone hne
      · exact absurd hruns (hend.not_runsOut hwf)
    · exact minimalAt_of_noSkip hwf hdate hcal hskip

/-- From the last Sunday of August 1983, midnight of a Sunday in September on the seventh or the
thirty-first: one day search gives up, and no month is left. -/
theorem minimalAt_sunday :
    dcmCronParseGetNext (dcmCronParseExp "0 0 7,31 9 0".toList .zero).2 431222400 = 462844800 ∧
      MinimalAt (dcmCronParseExp "0 0 7,31 9 0".toList .zero).2 431222400 := by
  have hacc : (dcmCronParseExp "0 0 7,31 9 0".toList .zero).1 = true := by decide +kernel
  have hends : stepsFrom (searchStep (dcmCronParseExp "0 0 7,31 9 0".toList .zero).2
      (startYear (searchStart (dcmCronParseExp "0 0 7,31 9 0".toList .zero).2 431222400))) 8
      (.call (searchStart (dcmCronParseExp "0 0 7,31 9 0".toList .zero).2 431222400) []) =
        .stop 462844800 [] := by decide +kernel
  have hstop : ComesTo (dcmCronParseExp "0 0 7,31 9 0".toList .zero).2 431222400
      (.stop 462844800 []) := by
    rw [ComesTo, ← hends]
    exact reaches_stepsFrom _ _
  have hstays : ∀ k : Fin 9, ∀ z ∈ (stepsFrom
      (searchStep (dcmCronParseExp "0 0 7,31 9 0".toList .zero).2
        (startYear (searchStart (dcmCronParseExp "0 0 7,31 9 0".toList .zero).2 431222400))) k
      (.call (searchStart (dcmCronParseExp "0 0 7,31 9 0".toList .zero).2 431222400) [])).dayOf,
        ¬LeavesMonth (dcmCronParseExp "0 0 7,31 9 0".toList .zero).2 z := by decide +kernel
  refine ⟨getNext_of_stop (wellFormed_of_accepted hacc) (by norm_num) (by decide +kernel) hstop,
    (minimalAt_iff_noSkip hacc (by norm_num) (by decide +kernel)).mpr
      (Or.inr ⟨fun h => h.1.1 (by decide +kernel), fun fresh t calls hreach h => ?_⟩)⟩
  obtain ⟨k, hk, heq⟩ := exists_stepsFrom (by rw [hends]; rfl) hreach
  refine hstays ⟨k, by omega⟩ (t / 86400) ?_ h.1
  rw [← heq]
  rfl

/-- Two skips: from 15 seconds past midnight the twentieth second of the fifth minute is taken
instead of the tenth, and from January 31 a pattern for February leads to the next year. -/
theorem firings_skipped :
    (dcmCronParseExp "10,20 5 * * * *".toList .zero).1 = true ∧
      dcmCronParseGetNext (dcmCronParseExp "10,20 5 * * * *".toList .zero).2 15 = 320 ∧
      ¬MinimalAt (dcmCronParseExp "10,20 5 * * * *".toList .zero).2 15 ∧
      (dcmCronParseExp "0 0 * 2 *".toList .zero).1 = true ∧
      dcmCronParseGetNext (dcmCronParseExp "0 0 * 2 *".toList .zero).2 2592000 = 34214400 ∧
      ¬MinimalAt (dcmCronParseExp "0 0 * 2 *".toList .zero).2 2592000 := by
  have h₁ : dcmCronParseGetNext (dcmCronParseExp "10,20 5 * * * *".toList .zero).2 15 = 320 := by
    decide +kernel
  have h₂ : dcmCronParseGetNext (dcmCronParseExp "0 0 * 2 *".toList .zero).2 2592000 =
      34214400 := by decide +kernel
  refine ⟨by decide +kernel, h₁, fun hmin => ?_, by decide +kernel, h₂, fun hmin => ?_⟩
  · rw [MinimalAt, h₁] at hmin
    exact hmin (by norm_num) 310 (by norm_num) (by norm_num) (by decide +kernel)
  · rw [MinimalAt, h₂] at hmin
    exact hmin (by norm_num) 2678400 (by norm_num) (by norm_num) (by decide +kernel)

end DcmAgent.Cron
