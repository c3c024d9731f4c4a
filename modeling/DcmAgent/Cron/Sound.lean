import Mathlib.Tactic
import DcmAgent.Cron.Answer

/-!
# Soundness of the next firing

The search ends at a time that does not match when the day search of its outermost call has moved
to a later day with the same number: it starts over only when the number has changed, so the
midnight that the resets lead to is taken as it is. No other step ends at a time that does not
match.
-/

namespace DcmAgent.Cron

open Library StateTransition

variable {e : DcmCronExpr} {date start t t' r u : ℤ} {c : Config} {fresh : Bool}
  {calls : List Pending}

/-- The next firing is later and matches, if there is one. -/
def SoundAt (e : DcmCronExpr) (date : ℤ) : Prop :=
  dcmCronParseGetNext e date ≠ -1 →
    date < dcmCronParseGetNext e date ∧ Matches e (dcmCronParseGetNext e date)

/-! ### One search -/

/-- The day search comes to a day with the same number in a month of the pattern, while that day or
the time of day that it leaves is not in the pattern. -/
def StaleDay (e : DcmCronExpr) (fresh : Bool) (t : ℤ) : Prop :=
  mdayOf (nextDay e (t / 86400)) = mdayOf (t / 86400) ∧
    MonthIn e (monthOf (nextDay e (t / 86400))) ∧
      ¬(DayIn e (nextDay e (t / 86400)) ∧ TodIn e (dayEnd e fresh t))

/-- The search for the next firing comes to such a day with no call that waits for its end. -/
def EndsStale (e : DcmCronExpr) (date : ℤ) : Prop :=
  ∃ fresh t, ComesTo e date (.day fresh t []) ∧ StaleDay e fresh t

lemma StaleDay.not_matches (h : StaleDay e fresh t) : ¬Matches e (dayEnd e fresh t) := by
  intro hmatch
  obtain ⟨htod, hday, -⟩ := matches_iff.mp hmatch
  rw [dayEnd_day] at hday
  exact h.2.2 ⟨hday, htod⟩

/-- A search ends at a stop exactly from such a day. -/
lemma comesTo_stop_iff (hwf : e.WellFormed) :
    (∃ r, ComesTo e date (.stop r [])) ↔ EndsStale e date := by
  constructor
  · rintro ⟨r, h⟩
    rcases Relation.ReflTransGen.cases_tail h with heq | ⟨c, hreach, hstep⟩
    · cases heq
    obtain ⟨fresh, t, calls, rfl, hstop⟩ := exists_day_of_step hwf hstep (by simp) (by simp)
    rcases dayStep_cases e (startYear (searchStart e date)) fresh t calls with ⟨-, heq⟩ |
      ⟨hsame, hmonth, ⟨-, heq⟩ | ⟨hno, heq⟩⟩ | ⟨-, ⟨-, heq⟩ | ⟨-, heq⟩⟩
    on_goal 3 =>
      obtain ⟨-, rfl⟩ := Config.stop.inj (heq.symm.trans hstop)
      refine ⟨fresh, t, hreach, hsame, hmonth, fun ⟨hday, htod⟩ => hno ?_⟩
      rw [← dayEnd_day e fresh t] at hday hmonth
      exact matches_iff.mpr ⟨htod, hday, hmonth⟩
    all_goals
      rw [heq] at hstop
      cases hstop
  · rintro ⟨fresh, t, hreach, hstale⟩
    refine ⟨dayEnd e fresh t, reaches_step hreach ?_⟩
    rw [searchStep, dayStep, if_neg (not_not.mpr hstale.1), if_pos hstale.2.1,
      if_neg hstale.not_matches]

/-- A search that finds a matching time does not end at a stop. -/
lemma not_endsStale_of_found (hwf : e.WellFormed) (h : ComesTo e date (.found r)) :
    ¬EndsStale e date := fun hstale => by
  obtain ⟨r', hstop⟩ := (comesTo_stop_iff hwf).mpr hstale
  cases halt_unique h hstop rfl rfl

/-- **The next firing matches.** For an accepted pattern and every date of the calendar, the next
firing is later and matches if and only if the search does not end from a stale day. -/
theorem soundAt_iff_not_endsStale {expression : List Char} {target : DcmCronExpr}
    (hacc : (dcmCronParseExp expression target).1 = true) {date : ℤ} (hdate : 0 ≤ date)
    (hcal : InCalendar date) :
    SoundAt (dcmCronParseExp expression target).2 date ↔
      ¬EndsStale (dcmCronParseExp expression target).2 date := by
  have hwf := wellFormed_of_accepted hacc
  generalize (dcmCronParseExp expression target).2 = e at hwf ⊢
  rcases getNext_cases hwf hdate hcal.time with ⟨hnone, hout⟩ | ⟨hlt, hend⟩
  · -- the search has run out of years
    refine iff_of_true (fun hne => absurd hnone hne) fun hstale => ?_
    obtain ⟨r, hstop⟩ := (comesTo_stop_iff hwf).mpr hstale
    cases halt_unique hout hstop rfl rfl
  · cases hend with
    | found hmatch hfound =>
      exact iff_of_true (fun _ => ⟨hlt, hmatch⟩) (not_endsStale_of_found hwf hfound)
    | stop hno _ _ hstop =>
      refine iff_of_false (fun hsound => ?_) (not_not.mpr ((comesTo_stop_iff hwf).mp ⟨_, hstop⟩))
      exact hno (hsound (by omega)).2

/-- From the morning of 2023-05-14, at five o'clock on the fifteenth: the inner calls stop at no
midnight, and the Monday is found. -/
theorem soundAt_monday :
    dcmCronParseGetNext (dcmCronParseExp "0 5 15 * 1".toList .zero).2 1684022400 = 1684126800 ∧
      SoundAt (dcmCronParseExp "0 5 15 * 1".toList .zero).2 1684022400 := by
  have hacc : (dcmCronParseExp "0 5 15 * 1".toList .zero).1 = true := by decide +kernel
  refine ⟨by decide +kernel,
    (soundAt_iff_not_endsStale hacc (by norm_num) (by decide +kernel)).mpr ?_⟩
  have hfound : stepsFrom (searchStep (dcmCronParseExp "0 5 15 * 1".toList .zero).2
      (startYear (searchStart (dcmCronParseExp "0 5 15 * 1".toList .zero).2 1684022400))) 8
      (.call (searchStart (dcmCronParseExp "0 5 15 * 1".toList .zero).2 1684022400) []) =
        .found 1684126800 := by decide +kernel
  refine not_endsStale_of_found (r := 1684126800) (wellFormed_of_accepted hacc) ?_
  rw [ComesTo, ← hfound]
  exact reaches_stepsFrom _ _

/-- At five o'clock on the fifteenth, if it is a Monday: after 2023-02-15 05:00:00 comes
2023-05-15 00:00:00. -/
theorem next_firing_at_midnight :
    (dcmCronParseExp "0 5 15 * 1".toList .zero).1 = true ∧
      dcmCronParseGetNext (dcmCronParseExp "0 5 15 * 1".toList .zero).2 1676437200 =
        1684108800 ∧
      ¬SoundAt (dcmCronParseExp "0 5 15 * 1".toList .zero).2 1676437200 := by
  have hnext : dcmCronParseGetNext (dcmCronParseExp "0 5 15 * 1".toList .zero).2 1676437200 =
      1684108800 := by decide +kernel
  refine ⟨by decide +kernel, hnext, fun hsound => ?_⟩
  rw [SoundAt, hnext] at hsound
  have hhour : ¬InSet (dcmCronParseExp "0 5 15 * 1".toList .zero).2.hours
      (gmtime 1684108800).hour := by decide +kernel
  exact hhour (hsound (by norm_num)).2.hour

/-! ### Patterns without stale days -/

/-- Midnight is a time of day of the pattern. -/
def MidnightIn (e : DcmCronExpr) : Prop :=
  InSet e.seconds 0 ∧ InSet e.minutes 0 ∧ InSet e.hours 0

/-- From day `z` the day search moves to a day with the same number in a month of the pattern,
while that day or midnight is not in the pattern. -/
def StaleStop (e : DcmCronExpr) (z : ℤ) : Prop :=
  nextDay e z ≠ z ∧ mdayOf (nextDay e z) = mdayOf z ∧ MonthIn e (monthOf (nextDay e z)) ∧
    ¬(DayIn e (nextDay e z) ∧ MidnightIn e)

/-- Later calls see no stale stop either. -/
def NoStale (e : DcmCronExpr) (t : ℤ) : Prop := ∀ z, t / 86400 ≤ z → ¬StaleStop e z

lemma NoStale.mono (h : NoStale e t) (hle : t ≤ t') : NoStale e t' := fun z hz =>
  h z (by omega)

/-- No call has ended at a stop. -/
def Config.Sharp (e : DcmCronExpr) : Config → Prop
  | .call _ _ => True
  | .day _ t _ => TodIn e t
  | .stop _ _ => False
  | .found _ => True
  | .out => True

/-- Moving the day keeps the time of day in the pattern, when midnight is. -/
lemma todIn_dayEnd (hmid : MidnightIn e) (ht : TodIn e t) : TodIn e (dayEnd e fresh t) := by
  by_cases hin : DayIn e (t / 86400)
  · rwa [dayEnd_of_in hin]
  · rw [dayEnd_of_moved fun h => hin (nextDay_eq_self_iff.mp h)]
    have hbounds := secondAfter_bounds fresh t
    obtain ⟨w, hw⟩ : ∃ w, nextDay e (t / 86400) = w := ⟨_, rfl⟩
    rw [hw]
    refine ⟨?_, ?_, ?_⟩
    · change InSet e.seconds ((86400 * w + secondAfter fresh t) % 60)
      rw [show (86400 * w + secondAfter fresh t) % 60 = secondAfter fresh t by omega, secondAfter]
      split_ifs
      · exact hmid.1
      · exact ht.sec
    · change InSet e.minutes ((86400 * w + secondAfter fresh t) / 60 % 60)
      rw [show (86400 * w + secondAfter fresh t) / 60 % 60 = 0 by omega]
      exact hmid.2.1
    · change InSet e.hours ((86400 * w + secondAfter fresh t) / 3600 % 24)
      rw [show (86400 * w + secondAfter fresh t) / 3600 % 24 = 0 by omega]
      exact hmid.2.2

lemma Config.Sharp.step (hwf : e.WellFormed) {dot : ℤ} (hstale : NoStale e start)
    (hfrom : c.From start) (h : c.Sharp e) {c' : Config} (hstep : searchStep e dot c = some c') :
    c'.Sharp e := by
  match c with
  | .call t calls =>
    obtain rfl := Option.some.inj hstep
    obtain ⟨t₁, -, ⟨w, -, -, heq⟩ | ⟨-, w, -, -, heq⟩ | ⟨htod, heq⟩⟩ := callStep_cases hwf t calls
    · rw [heq]
      trivial
    · rw [heq]
      trivial
    · rw [heq]
      exact htod
  | .day fresh t calls =>
    obtain rfl := Option.some.inj hstep
    simp only [Config.From] at hfrom
    rcases dayStep_cases e dot fresh t calls with ⟨-, heq⟩ |
      ⟨hsame, hmonth, ⟨-, heq⟩ | ⟨hno, -⟩⟩ | ⟨-, ⟨-, heq⟩ | ⟨-, heq⟩⟩
    · rw [heq]
      trivial
    · rw [heq]
      trivial
    · -- the day search has not moved, or it has moved to a matching time
      have hgood : DayIn e (nextDay e (t / 86400)) ∧ TodIn e (dayEnd e fresh t) := by
        by_cases hstay : nextDay e (t / 86400) = t / 86400
        · have hin := nextDay_eq_self_iff.mp hstay
          rw [hstay, dayEnd_of_in hin]
          exact ⟨hin, h⟩
        · have hmoved := hstale (t / 86400) (by omega)
          obtain ⟨hin, hmid⟩ : DayIn e (nextDay e (t / 86400)) ∧ MidnightIn e := by
            by_contra hbad
            exact hmoved ⟨hstay, hsame, hmonth, hbad⟩
          exact ⟨hin, todIn_dayEnd hmid h⟩
      rw [← dayEnd_day e fresh t] at hgood hmonth
      exact absurd (matches_iff.mpr ⟨hgood.2, hgood.1, hmonth⟩) hno
    · rw [heq]
      trivial
    · rw [heq]
      trivial

lemma soundAt_of_noStale (hwf : e.WellFormed) {date : ℤ} (hdate : 0 ≤ date)
    (hstale : NoStale e date) : SoundAt e date := by
  intro hne
  by_cases hyear : (gmtime date).year < 2 ^ 31
  · rcases getNext_cases hwf hdate (dcmCronParseTime_eq_some hyear) with ⟨hnone, -⟩ | ⟨hlt, hend⟩
    · exact absurd hnone hne
    · cases hend with
      | found hmatch _ => exact ⟨hlt, hmatch⟩
      | stop _ _ _ hstop =>
        have hstale' := hstale.mono (le_searchStart e date)
        obtain ⟨-, hsharp⟩ := invariant_of_reaches hstop
          (P := fun c => c.From (searchStart e date) ∧ c.Sharp e)
          ⟨le_refl (searchStart e date), trivial⟩
          fun c c' h hstep => ⟨h.1.step hwf hstep, h.2.step hwf hstale' h.1 hstep⟩
        exact hsharp.elim
  · refine absurd ?_ hne
    unfold dcmCronParseGetNext
    rw [dcmCronParseTime_eq_none hyear]
    rfl

/-! ### Every quarter of an hour -/

/-- The pattern that fires every quarter of an hour. -/
def quarters : DcmCronExpr := (dcmCronParseExp "*/15 * * * *".toList .zero).2

lemma dayIn_quarters (z : ℤ) : DayIn quarters z := by
  have hmday : ∀ d : Fin 32, 1 ≤ d.val → dcmCronParseGetBit quarters.daysOfMonth d = true := by
    decide +kernel
  have hwday : ∀ d : Fin 7, dcmCronParseGetBit quarters.daysOfWeek d = true := by
    decide +kernel
  have hz := mdayOf_bounds z
  refine ⟨hmday ⟨(mdayOf z).toNat, by omega⟩ (by dsimp only; omega), hwday ⟨(wdayOf z).toNat, ?_⟩⟩
  unfold wdayOf
  omega

end DcmAgent.Cron
