import Mathlib.Tactic
import DcmAgent.Cron.Ends
import DcmAgent.Library.Weekdays

/-!
# The next firing is always found or given up

Some day of the pattern, whatever its month, lies in the fifth or the sixth year after the start,
behind the years that the search may reach. The search ends before that day is over. It fails only
when the machine runs out of years.
-/

namespace DcmAgent.Cron

open Library StateTransition

variable {e : DcmCronExpr} {dot start bound t t₁ a r u w z μ : ℤ} {c c₀ : Config}

/-! ### Where a search enters -/

/-- The first minute of the pattern's times of day, once the seconds are in place. -/
structure EntryMinute (e : DcmCronExpr) (t μ : ℤ) : Prop where
  tod : TodMinute e μ
  first : ∃ t₁, NextUnit e.seconds 60 t t₁ ∧ t₁ / 60 ≤ μ ∧
    ∀ ν, t₁ / 60 ≤ ν → ν < μ → ¬TodMinute e ν

/-- A later start with no time of day in between enters at the same minute. -/
lemma EntryMinute.of_later (hw : NextUnit e.seconds 60 t t₁) (hsec : HasBit e.seconds 0 60)
    (hstrong : Strong e a) (hle : t₁ / 60 ≤ a / 60)
    (hno : ∀ ν, t₁ / 60 ≤ ν → ν < a / 60 → ¬TodMinute e ν) (h : EntryMinute e a μ) :
    EntryMinute e t μ := by
  obtain ⟨htod, a₁, ha, hle', hno'⟩ := h
  have hmin := Strong.minute_eq ha hsec hstrong
  refine ⟨htod, t₁, hw, by omega, fun ν hν hνμ => ?_⟩
  by_cases hν' : ν < a / 60
  · exact hno ν hν hν'
  · exact hno' ν (by omega) hνμ

/-- From the start of an hour of the pattern, the search enters within the hour. -/
lemma EntryMinute.hour_eq (hwf : e.WellFormed) (hstrong : Strong e a)
    (ha : a / 60 = 60 * w) (hw : InSet e.hours (w % 24)) (h : EntryMinute e a μ) : μ / 60 = w := by
  obtain ⟨-, a₁, ha₁, hle, hno⟩ := h
  have hmin := Strong.minute_eq ha₁ hwf.seconds hstrong
  obtain ⟨i, -, hi, hbit⟩ := hwf.minutes
  have htod : TodMinute e (60 * w + i) := by
    refine ⟨?_, ?_⟩
    · rw [InSet, show ((60 * w + (i : ℤ)) % 60).toNat = i by omega]
      exact hbit
    · rwa [show (60 * w + (i : ℤ)) / 60 = w by omega]
  by_contra hne
  exact hno _ (by omega) (by omega) htod

/-- From midnight, the search enters on the same day. -/
lemma EntryMinute.day_eq (hwf : e.WellFormed) (hstrong : Strong e a)
    (ha : a / 60 = 1440 * z) (h : EntryMinute e a μ) : μ / 1440 = z := by
  obtain ⟨-, a₁, ha₁, hle, hno⟩ := h
  have hmin := Strong.minute_eq ha₁ hwf.seconds hstrong
  obtain ⟨i, -, hi, hbit⟩ := hwf.minutes
  obtain ⟨j, -, hj, hjbit⟩ := hwf.hours
  have htod : TodMinute e (1440 * z + 60 * j + i) := by
    refine ⟨?_, ?_⟩
    · rw [InSet, show ((1440 * z + 60 * (j : ℤ) + (i : ℤ)) % 60).toNat = i by omega]
      exact hbit
    · rw [InSet, show ((1440 * z + 60 * (j : ℤ) + (i : ℤ)) / 60 % 24).toNat = j by omega]
      exact hjbit
  by_contra hne
  exact hno _ (by omega) (by omega) htod

/-- The pattern's times of day are entered from every time. -/
lemma exists_entryMinute (hwf : e.WellFormed) (t : ℤ) : ∃ μ, EntryMinute e t μ := by
  obtain ⟨t₁, hw⟩ : ∃ t₁, NextUnit e.seconds (60 : ℕ) t t₁ :=
    exists_nextUnit (by norm_num) hwf.seconds t
  obtain ⟨h, hh⟩ : ∃ h, NextUnit e.hours (24 : ℕ) (t₁ / 3600 + 1) h :=
    exists_nextUnit (by norm_num) hwf.hours _
  obtain ⟨m, hm⟩ : ∃ m, NextUnit e.minutes (60 : ℕ) (60 * h) m :=
    exists_nextUnit (by norm_num) hwf.minutes _
  have hle := hh.le
  have hle' := hm.le
  have hlt' := hm.lt
  have htod : TodMinute e m := ⟨hm.mem, by
    rw [show m / 60 = h by omega]
    exact hh.mem⟩
  -- the first of the times of day, of which there is one in the hour `h`
  obtain ⟨μ, ⟨hge, hμ⟩, hfirst⟩ := Int.exists_least_of_bdd
    (P := fun μ => t₁ / 60 ≤ μ ∧ TodMinute e μ) ⟨t₁ / 60, fun _ hμ => hμ.1⟩ ⟨m, by omega, htod⟩
  exact ⟨μ, hμ, t₁, hw, hge, fun ν h₁ h₂ hν => absurd (hfirst ν ⟨h₁, hν⟩) (not_le.mpr h₂)⟩

lemma EntryMinute.le (h : EntryMinute e t μ) : t / 60 ≤ μ := by
  obtain ⟨-, t₁, hw, hle, -⟩ := h
  have := hw.le
  omega

/-- Every day has a time of day of the pattern. -/
lemma EntryMinute.le_add (hwf : e.WellFormed) (h : EntryMinute e t μ) :
    μ / 1440 ≤ t / 86400 + 2 := by
  obtain ⟨-, t₁, hw, hle, hfirst⟩ := h
  have hlt := hw.lt
  obtain ⟨i, -, hi, hbit⟩ := hwf.minutes
  obtain ⟨j, -, hj, hjbit⟩ := hwf.hours
  obtain ⟨d, hd⟩ : ∃ d, t₁ / 86400 + 1 = d := ⟨_, rfl⟩
  have htod : TodMinute e (1440 * d + 60 * j + i) := by
    refine ⟨?_, ?_⟩
    · rw [InSet, show ((1440 * d + 60 * (j : ℤ) + (i : ℤ)) % 60).toNat = i by omega]
      exact hbit
    · rw [InSet, show ((1440 * d + 60 * (j : ℤ) + (i : ℤ)) / 60 % 24).toNat = j by omega]
      exact hjbit
  by_contra hlate
  exact hfirst _ (by omega) (by omega) htod

/-- The search enters by the minute of every matching time. -/
lemma EntryMinute.le_of_matches (h : EntryMinute e t μ) (hu : t ≤ u) (hmatch : Matches e u) :
    μ ≤ u / 60 := by
  obtain ⟨-, t₁, hw, -, hfirst⟩ := h
  obtain ⟨hsec, hminute⟩ := matches_iff_minute.mp hmatch
  have hle : t₁ ≤ u := by
    by_contra hlt
    exact hw.skip u hu (not_le.mp hlt) hsec
  by_contra hlt
  exact hfirst _ (by omega) (not_le.mp hlt) hminute.1

/-! ### A day that the search does not go past -/

/-- A search from `t` enters by the day `bound`. -/
def EntersBy (e : DcmCronExpr) (bound t : ℤ) : Prop := ∀ μ, EntryMinute e t μ → μ / 1440 ≤ bound

/-- The search has not gone past the day `bound`. -/
def Config.By (e : DcmCronExpr) (bound : ℤ) : Config → Prop
  | .call t _ => EntersBy e bound t
  | .day _ t _ => Strong e t ∧ t / 86400 ≤ bound
  | .stop t _ => Strong e t ∧ t / 86400 ≤ bound
  | .found _ => True
  | .out => True

/-- The months that the search leaves do not lead past the day `bound`, which is one of the pattern,
whatever its month. -/
structure LeadsTo (e : DcmCronExpr) (dot : ℤ) (c₀ : Config) (bound : ℤ) : Prop where
  day : DayIn e bound
  month : ∀ fresh t calls, Reaches (searchStep e dot) c₀ (.day fresh t calls) →
    t / 86400 ≤ bound → LeavesMonth e (t / 86400) → InHorizon e dot (t / 86400) →
      landing e (nextDay e (t / 86400)) ≤ bound

lemma nextDay_le (hday : DayIn e bound) (hz : z ≤ bound) : nextDay e z ≤ bound := by
  by_contra hlt
  exact not_dayIn_of_lt_findDay hz (not_le.mp hlt) hday

lemma EntersBy.lt (hwf : e.WellFormed) (h : EntersBy e bound t) : t < 86400 * (bound + 1) := by
  obtain ⟨μ, hμ⟩ := exists_entryMinute hwf t
  have hle := h μ hμ
  have hge := hμ.le
  omega

lemma EntersBy.of_midnight (hwf : e.WellFormed) (hstrong : Strong e a) (ha : a / 60 = 1440 * z)
    (hle : z ≤ bound) : EntersBy e bound a := fun μ hμ => by
  rwa [hμ.day_eq hwf hstrong ha]

lemma Strong.dayEnd (h : Strong e t) (fresh : Bool) : Strong e (dayEnd e fresh t) := by
  have hbounds := secondAfter_bounds fresh t
  unfold Cron.dayEnd
  split_ifs
  · exact h
  · exact h.after fresh (by omega)

section LeadsTo

variable (hwf : e.WellFormed) (hlead : LeadsTo e dot c₀ bound)

include hwf hlead

lemma LeadsTo.step (hreach : Reaches (searchStep e dot) c₀ c) (hplaced : c.Placed e)
    (h : c.By e bound) {c' : Config} (hstep : searchStep e dot c = some c') : c'.By e bound := by
  match c with
  | .call t calls =>
    obtain rfl := Option.some.inj hstep
    obtain ⟨t₁, hw₁, h'⟩ := callStep_cases hwf t calls
    have hbounds := secondAfter_bounds (secondIn e t) t₁
    rcases h' with ⟨w, hw, hlt, heq⟩ | ⟨-, w, hw, hlt, heq⟩ | ⟨htod, heq⟩
    · rw [heq]
      refine fun μ hμ => h μ (hμ.of_later hw₁ hwf.seconds ?_ (by omega) fun ν h₁ h₂ hν => ?_)
      · exact Strong.after (Or.inl hw₁.mem) (secondIn e t) (by omega)
      · exact hw.skip ν h₁ (by omega) hν.1
    · rw [heq]
      refine fun μ hμ => h μ (hμ.of_later hw₁ hwf.seconds ?_ (by omega) fun ν h₁ h₂ hν => ?_)
      · exact Strong.after (Or.inl hw₁.mem) (secondIn e t) (by omega)
      · exact hw.skip (ν / 60) (by omega) (by omega) hν.2
    · rw [heq]
      have hhour : InSet e.hours (t₁ / 60 / 60 % 24) := by
        rw [show t₁ / 60 / 60 = t₁ / 3600 by omega]
        exact htod.hour
      have hentry : EntryMinute e t (t₁ / 60) :=
        ⟨⟨htod.min, hhour⟩, t₁, hw₁, le_rfl, fun ν h₁ h₂ => absurd h₁ (not_le.mpr h₂)⟩
      have hle := h _ hentry
      exact ⟨Or.inl hw₁.mem, by omega⟩
  | .day fresh t calls =>
    obtain rfl := Option.some.inj hstep
    obtain ⟨hstrong, hle⟩ := h
    have hnext := nextDay_le hlead.day hle
    have hbounds := secondAfter_bounds fresh t
    rcases dayStep_cases e dot fresh t calls with ⟨hne, heq⟩ | ⟨-, -, ⟨-, heq⟩ | ⟨-, heq⟩⟩ |
      ⟨hleaves, ⟨hhor, heq⟩ | ⟨-, heq⟩⟩
    · rw [heq]
      have hmoved : nextDay e (t / 86400) ≠ t / 86400 := fun h => hne (congrArg mdayOf h)
      exact EntersBy.of_midnight hwf (hstrong.dayEnd fresh)
        (by rw [dayEnd_of_moved hmoved]; omega) hnext
    · rw [heq]
      trivial
    · rw [heq]
      exact ⟨hstrong.dayEnd fresh, by rwa [dayEnd_day]⟩
    · rw [heq]
      exact EntersBy.of_midnight hwf (hstrong.after fresh (by omega)) (by omega)
        (hlead.month fresh t calls hreach hle hleaves hhor)
    · rw [heq]
      trivial
  | .stop t (waiting :: calls) =>
    obtain rfl := Option.some.inj hstep
    obtain ⟨hstrong, hle⟩ := h
    have hmid := hplaced.2
    obtain ⟨fresh, heq | ⟨w, hw, hlt, heq⟩⟩ := resume_cases hwf t waiting calls
    · rw [heq]
      exact ⟨hstrong, hle⟩
    · rw [heq]
      intro μ hμ
      have hbounds := secondAfter_bounds fresh t
      have hhour := hμ.hour_eq hwf (hstrong.after fresh (by omega)) (by omega) hw.mem
      have hlt' := hw.lt
      omega

lemma LeadsTo.by (hplaced : c₀.Placed e) (h : c₀.By e bound)
    (hreach : Reaches (searchStep e dot) c₀ c) : c.By e bound := by
  induction hreach with
  | refl => exact h
  | tail hreach hstep ih =>
    have hplaced := invariant_of_reaches hreach hplaced fun _ _ h => h.step hwf
    exact hlead.step hwf hreach hplaced ih hstep

end LeadsTo

/-! ### A day of the pattern -/

/-- Any two years in a row have a day of the pattern. -/
lemma exists_dayIn (hwf : e.WellFormed) (y : ℤ) :
    ∃ z, DayIn e z ∧ 12 * y ≤ monthOf z ∧ monthOf z < 12 * (y + 2) := by
  obtain ⟨d, hd₁, hd₃₂, hd⟩ := hwf.daysOfMonth
  obtain ⟨w, -, hw₇, hw⟩ := hwf.daysOfWeek
  obtain ⟨z, hlo, hhi, hmday, hwday⟩ := exists_mday_wday y (d := d) (w := w) (by omega) (by omega)
    (by omega) (by omega)
  refine ⟨z, ⟨?_, ?_⟩, hlo, hhi⟩
  · rw [hmday]
    exact hd
  · rw [hwday]
    exact hw

/-- A year has at most 366 days. -/
lemma monthStart_add_year (y : ℤ) : monthStart (12 * (y + 1)) ≤ monthStart (12 * y) + 366 := by
  have hleap := leapDays_succ (y - 1)
  simp only [monthStart]
  rw [show (12 * (y + 1) - 2) / 12 = y by omega, show (12 * (y + 1) - 2) % 12 = 10 by omega,
    show (12 * y - 2) / 12 = y - 1 by omega, show (12 * y - 2) % 12 = 10 by omega]
  omega

lemma monthStart_add_years (y : ℤ) (n : ℕ) :
    monthStart (12 * (y + n)) ≤ monthStart (12 * y) + 366 * n := by
  induction n with
  | zero => simp
  | succ n ih =>
    have := monthStart_add_year (y + n)
    push_cast
    rw [← add_assoc]
    omega

/-- The month search goes at most a year ahead. -/
lemma monthOf_monthMove_le (hm : HasBit e.months 0 12) (z : ℤ) :
    monthOf (monthMove e z) ≤ monthOf z + 12 := by
  have hlt := (exists_nextUnit_month hm (monthOf z)).lt
  rw [monthOf_monthMove hm]
  split_ifs <;> omega

lemma le_monthOf_monthMove (hm : HasBit e.months 0 12) (z : ℤ) :
    monthOf z ≤ monthOf (monthMove e z) := by
  have hle := (exists_nextUnit_month hm (monthOf z)).le
  rw [monthOf_monthMove hm]
  split_ifs <;> omega

lemma startYear_eq (t : ℤ) : startYear t = monthOf (t / 86400) / 12 - 1900 := rfl

/-- The difference of the years does not wrap around. -/
lemma inHorizon_iff (hm : HasBit e.months 0 12) (hlo : start / 86400 ≤ nextDay e z)
    (hhi : monthOf (nextDay e z) < 12 * (startYear start + 1900 + 1000)) :
    InHorizon e (startYear start) z ↔
      monthOf (monthMove e (nextDay e z)) / 12 ≤ startYear start + 1900 + 4 := by
  have hmono := monthOf_mono hlo
  have h₁ := le_monthOf_monthMove (e := e) hm (nextDay e z)
  have h₂ := monthOf_monthMove_le (e := e) hm (nextDay e z)
  rw [InHorizon, Horizon, cronMaxYearsDiff, Int.emod_eq_of_lt]
  all_goals
    rw [startYear_eq] at *
    omega

lemma le_of_reaches_day (hwf : e.WellFormed) {fresh : Bool} {calls : List Pending}
    (h : Reaches (searchStep e dot) (.call start []) (.day fresh t calls)) : start ≤ t :=
  invariant_of_reaches (P := Config.From start) h (le_refl start) fun _ _ h => h.step hwf

/-- The search leads to a day behind the years that it may reach. -/
lemma exists_leadsTo (hwf : e.WellFormed) (start : ℤ) :
    ∃ bound, LeadsTo e (startYear start) (.call start []) bound ∧ EntersBy e bound start ∧
      86400 * (bound + 1) ≤ start + searchFuel := by
  obtain ⟨y, hy⟩ : ∃ y, startYear start + 1900 = y := ⟨_, rfl⟩
  have hy' : monthOf (start / 86400) / 12 = y := by
    rw [startYear_eq] at hy
    omega
  obtain ⟨bound, hday, hlo, hhi⟩ := exists_dayIn hwf (y + 5)
  have hfirst := monthOf_spec bound
  have hstart : monthStart (12 * y) ≤ start / 86400 :=
    (monthStart_strictMono.monotone (by omega)).trans (monthOf_spec (start / 86400)).1
  have hend : start / 86400 + 2 ≤ bound := by
    have h₁ := monthStart_strictMono (show monthOf (start / 86400) + 1 < 12 * (y + 5) by omega)
    have h₂ := monthStart_strictMono (show monthOf (start / 86400) + 2 < monthOf bound by omega)
    have h₃ := monthStart_lt_succ (monthOf (start / 86400) + 1)
    have h₄ := (monthOf_spec (start / 86400)).2
    rw [show monthOf (start / 86400) + 1 + 1 = monthOf (start / 86400) + 2 by ring] at h₃
    omega
  refine ⟨bound, ⟨hday, fun fresh t calls hreach hle hleaves hhor => ?_⟩, fun μ hμ => ?_, ?_⟩
  · have hle' := nextDay_le hday hle
    have hge := le_nextDay e (t / 86400)
    have hfrom := le_of_reaches_day hwf hreach
    have hmono := monthOf_mono hle'
    have hyear := (inHorizon_iff hwf.months (by omega) (by omega)).mp hhor
    rw [landing]
    exact (monthStart_strictMono.monotone (by omega)).trans hfirst.1
  · exact (hμ.le_add hwf).trans hend
  · have h₁ := monthStart_strictMono.monotone (show monthOf bound + 1 ≤ 12 * (y + (7 : ℕ)) by
      push_cast
      omega)
    have h₂ := monthStart_add_years y 7
    simp only [searchFuel]
    push_cast at h₁ h₂ ⊢
    omega

/-! ### The search for the next firing -/

/-- The search ends within every bound from `searchFuel` on, where the machine does. -/
theorem search_ends (hwf : e.WellFormed) (ht : 0 ≤ t) {fuel : ℕ} (hfuel : searchFuel ≤ fuel) :
    (doNextWithin e (startYear t) fuel (gmtime t)).run =
        some (dcmCronParseDoNext e (startYear t) searchFuel (gmtime t)) ∧
      (dcmCronParseDoNext e (startYear t) searchFuel (gmtime t) = none →
        Reaches (searchStep e (startYear t)) (.call t []) .out) ∧
      ∀ c ∈ dcmCronParseDoNext e (startYear t) searchFuel (gmtime t),
        Result e (startYear t) (.call t []) [] t c := by
  obtain ⟨bound, hlead, hent, hbound⟩ := exists_leadsTo hwf t
  have hlimit : ∀ a calls, Reaches (searchStep e (startYear t)) (.call t []) (.call a calls) →
      a < 86400 * (bound + 1) := fun a calls h =>
    EntersBy.lt hwf (hlead.by hwf trivial hent h)
  obtain ⟨hrun, hfails, hres⟩ := (ends_doNextWithin hwf hlimit ht hbound .refl).of_agrees
    (agrees_doNextWithin e (startYear t) searchFuel (gmtime t))
  exact ⟨extends_doNextWithin e _ hfuel _ _ hrun, hfails, hres⟩

/-- **The search for the next firing ends.** For an accepted pattern and every date, calls of a
bounded depth give the next firing. -/
theorem getNextWithin_eq {expression : List Char} {target : DcmCronExpr}
    (hacc : (dcmCronParseExp expression target).1 = true) {date : ℤ} (hdate : 0 ≤ date)
    {fuel : ℕ} (hfuel : searchFuel ≤ fuel) :
    getNextWithin fuel (dcmCronParseExp expression target).2 date =
      some (dcmCronParseGetNext (dcmCronParseExp expression target).2 date) := by
  have hwf := wellFormed_of_accepted hacc
  generalize (dcmCronParseExp expression target).2 = e at hwf ⊢
  obtain ⟨hrun, -, hres⟩ := search_ends hwf hdate hfuel
  rw [startYear] at hrun hres
  unfold getNextWithin dcmCronParseGetNext
  by_cases hyear : (gmtime date).year < 2 ^ 31
  · rw [dcmCronParseTime_eq_some hyear]
    simp only [timegm_gmtime, cronInvalidInstant, hrun]
    rw [if_neg (by omega), if_neg (by omega), Option.bind_some]
    generalize dcmCronParseDoNext e (gmtime date).year searchFuel (gmtime date) = o at hres ⊢
    cases o with
    | none => rfl
    | some c =>
      obtain ⟨r, rfl, hle, -⟩ := hres c rfl
      have hok : decide (r + 1 ≠ -1) = true := decide_eq_true (by omega)
      simp only [timegm_gmtime, dcmCronParseAddToField_second, hok, checked, if_true]
      split_ifs with h₁ h₂
      · rfl
      · -- the second search starts a second later
        obtain ⟨hrun', -, -⟩ := search_ends (t := r + 1) hwf (by omega) hfuel
        rw [startYear] at hrun'
        generalize dcmCronParseDoNext e (gmtime (r + 1)).year searchFuel (gmtime (r + 1)) = o' at *
        rw [hrun']
        cases o' <;> rfl
      · rfl
  · rw [dcmCronParseTime_eq_none hyear]

/-- A pattern for February 30: no firing. -/
theorem february_thirty_ends :
    (dcmCronParseExp "0 0 30 2 *".toList .zero).1 = true ∧
      getNextWithin searchFuel (dcmCronParseExp "0 0 30 2 *".toList .zero).2 1676437200 =
        some (dcmCronParseGetNext (dcmCronParseExp "0 0 30 2 *".toList .zero).2 1676437200) ∧
      dcmCronParseGetNext (dcmCronParseExp "0 0 30 2 *".toList .zero).2 1676437200 = -1 :=
  ⟨by decide +kernel, getNextWithin_eq (by decide +kernel) (by norm_num) le_rfl,
    by decide +kernel⟩

end DcmAgent.Cron
