import Mathlib.Tactic
import DcmAgent.Cron.Total

/-!
# Where the search ends

The search for the next firing starts from the date, or from the next second when the date itself
matches. Its result is the time that the machine halts at: a matching time, or a stop that no call
waits for.
-/

namespace DcmAgent.Cron

open Library StateTransition

variable {e : DcmCronExpr} {dot date r t u : ℤ} {c c₀ : Config} {fresh : Bool}
  {calls : List Pending}

/-! ### One search -/

lemma reaches_found (h : Matches e t) : Reaches (searchStep e dot) (.call t []) (.found t) := by
  obtain ⟨htod, hday, hmonth⟩ := matches_iff.mp h
  have hw₁ : NextUnit e.seconds 60 t t :=
    ⟨le_rfl, by omega, htod.sec, fun x h₁ h₂ => absurd h₁ (not_le.mpr h₂)⟩
  have hstay := nextDay_eq_self_iff.mpr hday
  have hcall : searchStep e dot (.call t []) = some (.day (secondIn e t) t []) := by
    rw [searchStep, callStep_day hw₁ htod.min htod.hour]
  refine reaches_step (Relation.ReflTransGen.single hcall) ?_
  rw [searchStep, dayStep, if_neg (not_not.mpr (congrArg mdayOf hstay)), hstay, if_pos hmonth,
    dayEnd_of_in hday, if_pos h]

lemma lt_dayEnd (h : nextDay e (t / 86400) ≠ t / 86400) : t < dayEnd e fresh t := by
  have hle := le_nextDay e (t / 86400)
  have hbounds := secondAfter_bounds fresh t
  rw [dayEnd_of_moved h]
  omega

lemma Outcome.eq_of_found (h : Outcome e dot c₀ [] r)
    (hfound : Reaches (searchStep e dot) c₀ (.found u)) : r = u := by
  cases h with
  | found _ hreach => exact Config.found.inj (halt_unique hreach hfound rfl rfl)
  | stop _ _ _ hreach => cases halt_unique hreach hfound rfl rfl

lemma Outcome.eq_of_stop (h : Outcome e dot c₀ [] r)
    (hstop : Reaches (searchStep e dot) c₀ (.stop u [])) : r = u := by
  cases h with
  | found _ hreach => cases halt_unique hreach hstop rfl rfl
  | stop _ _ _ hreach => exact (Config.stop.inj (halt_unique hreach hstop rfl rfl)).1

lemma Outcome.not_out (h : Outcome e dot c₀ [] r)
    (hout : Reaches (searchStep e dot) c₀ .out) : False := by
  cases h with
  | found _ hreach => cases halt_unique hreach hout rfl rfl
  | stop _ _ _ hreach => cases halt_unique hreach hout rfl rfl

/-- The result is not before any time that the search comes to. -/
lemma Outcome.le_of_from (hwf : e.WellFormed) (h : Outcome e dot c₀ [] r)
    (hreach : Reaches (searchStep e dot) c₀ c) (hfrom : c.From u) : u ≤ r := by
  cases h with
  | found _ hend =>
    exact invariant_of_reaches (P := Config.From u) (reaches_halt hreach hend rfl) hfrom
      fun _ _ h => h.step hwf
  | stop _ _ _ hend =>
    exact invariant_of_reaches (P := Config.From u) (reaches_halt hreach hend rfl) hfrom
      fun _ _ h => h.step hwf

/-- A search from a time that does not match does not stay there. -/
lemma Outcome.lt (hwf : e.WellFormed) (hno : ¬Matches e t)
    (h : Outcome e dot (.call t []) [] r) : t < r := by
  suffices hlater : ∃ c, Reaches (searchStep e dot) (.call t []) c ∧ c.From (t + 1) by
    obtain ⟨c, hreach, hfrom⟩ := hlater
    exact h.le_of_from hwf hreach hfrom
  obtain ⟨t₁, hw₁, h'⟩ := callStep_cases hwf t []
  have hle := hw₁.le
  have hcall : Reaches (searchStep e dot) (.call t []) (callStep e t []) :=
    .single rfl
  have hbounds := secondAfter_bounds (secondIn e t) t₁
  rcases h' with ⟨w, -, hlt, heq⟩ | ⟨-, w, -, hlt, heq⟩ | ⟨htod, heq⟩
  · refine ⟨_, hcall, ?_⟩
    rw [heq]
    simp only [Config.From]
    omega
  · refine ⟨_, hcall, ?_⟩
    rw [heq]
    simp only [Config.From]
    omega
  · rw [heq] at hcall
    refine ⟨_, hcall.tail rfl, ?_⟩
    have hend : mdayOf (nextDay e (t₁ / 86400)) ≠ mdayOf (t₁ / 86400) ∨
        MonthIn e (monthOf (nextDay e (t₁ / 86400))) → t < dayEnd e (secondIn e t) t₁ := by
      intro hcases
      by_cases hstay : nextDay e (t₁ / 86400) = t₁ / 86400
      · have hmonth := hcases.resolve_left fun hne => hne (congrArg mdayOf hstay)
        have hin := nextDay_eq_self_iff.mp hstay
        rw [hstay] at hmonth
        rw [dayEnd_of_in hin]
        refine lt_of_le_of_ne hle fun heq => hno ?_
        rw [heq]
        exact matches_iff.mpr ⟨htod, hin, hmonth⟩
      · exact hle.trans_lt (lt_dayEnd hstay)
    rcases dayStep_cases e dot (secondIn e t) t₁ [] with ⟨hne, heq⟩ |
      ⟨-, hmonth, ⟨-, heq⟩ | ⟨-, heq⟩⟩ | ⟨hleaves, ⟨-, heq⟩ | ⟨-, heq⟩⟩
    · rw [heq]
      exact hend (Or.inl hne)
    · rw [heq]
      exact hend (Or.inr hmonth)
    · rw [heq]
      exact hend (Or.inr hmonth)
    · rw [heq]
      have hland := lt_landing hwf.months hleaves.2
      have hnext := le_nextDay e (t₁ / 86400)
      simp only [Config.From]
      omega
    · rw [heq]
      trivial

/-- The search from a matching time stays there. -/
lemma doNext_of_matches (hwf : e.WellFormed) (ht : 0 ≤ t) (h : Matches e t) :
    dcmCronParseDoNext e (startYear t) searchFuel (gmtime t) = some (gmtime t) := by
  obtain ⟨-, hfails, hres⟩ := search_ends hwf ht le_rfl
  cases hc : dcmCronParseDoNext e (startYear t) searchFuel (gmtime t) with
  | none => cases halt_unique (hfails hc) (reaches_found h) rfl rfl
  | some c =>
    obtain ⟨r, rfl, -, hend⟩ := hres c hc
    rw [hend.eq_of_found (reaches_found h)]

/-! ### The next firing -/

/-- The time that the search for the next firing starts from. -/
def searchStart (e : DcmCronExpr) (date : ℤ) : ℤ := if Matches e date then date + 1 else date

/-- The search for the next firing comes to a place. -/
def ComesTo (e : DcmCronExpr) (date : ℤ) (c : Config) : Prop :=
  Reaches (searchStep e (startYear (searchStart e date))) (.call (searchStart e date) []) c

/-- The search for the next firing ends at `r`. -/
def EndsAt (e : DcmCronExpr) (date r : ℤ) : Prop :=
  Outcome e (startYear (searchStart e date)) (.call (searchStart e date) []) [] r

lemma le_searchStart (e : DcmCronExpr) (date : ℤ) : date ≤ searchStart e date := by
  unfold searchStart
  split_ifs <;> omega

/-- A matching time after the date is not before the start of the search. -/
lemma searchStart_le (hu : date < u) : searchStart e date ≤ u := by
  unfold searchStart
  split_ifs <;> omega

/-- The next firing is the result of the search from `searchStart`. -/
lemma getNext_eq (hwf : e.WellFormed) (hdate : 0 ≤ date)
    (htime : dcmCronParseTime date = some (gmtime date)) :
    dcmCronParseGetNext e date =
      match dcmCronParseDoNext e (startYear (searchStart e date)) searchFuel
        (gmtime (searchStart e date)) with
      | none => -1
      | some c => timegm c := by
  unfold dcmCronParseGetNext
  rw [htime]
  simp only [timegm_gmtime, cronInvalidInstant]
  rw [if_neg (by omega)]
  by_cases hmatch : Matches e date
  · have hstay := doNext_of_matches hwf hdate hmatch
    have hok : decide (date + 1 ≠ -1) = true := decide_eq_true (by omega)
    rw [startYear] at hstay
    rw [hstay, searchStart, if_pos hmatch]
    simp only [timegm_gmtime, if_true]
    rw [if_neg (by omega), dcmCronParseAddToField_second, hok, checked, if_pos rfl]
    rfl
  · rw [searchStart, if_neg hmatch, startYear]
    obtain ⟨-, -, hres⟩ := search_ends hwf hdate le_rfl
    cases hc : dcmCronParseDoNext e (gmtime date).year searchFuel (gmtime date) with
    | none => rfl
    | some c =>
      obtain ⟨r, rfl, hle, hend⟩ := hres c hc
      have hlt := hend.lt hwf hmatch
      simp only [timegm_gmtime]
      rw [if_neg (by omega), if_neg (by omega)]

/-- The next firing is where the search ends, unless it runs out of years. -/
theorem getNext_cases (hwf : e.WellFormed) (hdate : 0 ≤ date)
    (htime : dcmCronParseTime date = some (gmtime date)) :
    dcmCronParseGetNext e date = -1 ∧ ComesTo e date .out ∨
      date < dcmCronParseGetNext e date ∧ EndsAt e date (dcmCronParseGetNext e date) := by
  have hstart := le_searchStart e date
  obtain ⟨-, hfails, hres⟩ := search_ends hwf (hdate.trans hstart) le_rfl
  rw [getNext_eq hwf hdate htime]
  cases hc : dcmCronParseDoNext e (startYear (searchStart e date)) searchFuel
    (gmtime (searchStart e date)) with
  | none => exact Or.inl ⟨rfl, hfails hc⟩
  | some c =>
    obtain ⟨r, rfl, hle, hend⟩ := hres c hc
    simp only [timegm_gmtime]
    refine Or.inr ⟨?_, hend⟩
    by_cases hmatch : Matches e date
    · rw [searchStart, if_pos hmatch] at hle
      omega
    · rw [searchStart, if_neg hmatch] at hend
      exact hend.lt hwf hmatch

lemma getNext_of_stop (hwf : e.WellFormed) (hdate : 0 ≤ date) (hcal : InCalendar date)
    (hstop : ComesTo e date (.stop u [])) : dcmCronParseGetNext e date = u := by
  rcases getNext_cases hwf hdate hcal.time with ⟨-, hout⟩ | ⟨-, hend⟩
  · cases halt_unique hout hstop rfl rfl
  · exact hend.eq_of_stop hstop

/-- On some day that a day search starts from, the month search leads past the years that the search
may reach. -/
def RunsOut (e : DcmCronExpr) (date : ℤ) : Prop :=
  ∃ fresh t calls, ComesTo e date (.day fresh t calls) ∧ LeavesMonth e (t / 86400) ∧
    ¬InHorizon e (startYear (searchStart e date)) (t / 86400)

lemma comesTo_out_iff (hwf : e.WellFormed) : ComesTo e date .out ↔ RunsOut e date := by
  constructor
  · intro h
    rcases Relation.ReflTransGen.cases_tail h with heq | ⟨c, hreach, hstep⟩
    · cases heq
    obtain ⟨fresh, t, calls, rfl, hout⟩ := exists_day_of_step hwf hstep (by simp) (by simp)
    refine ⟨fresh, t, calls, hreach, ?_⟩
    rcases dayStep_cases e (startYear (searchStart e date)) fresh t calls with ⟨-, heq⟩ |
      ⟨-, -, ⟨-, heq⟩ | ⟨-, heq⟩⟩ | ⟨hleaves, ⟨-, heq⟩ | ⟨hout, -⟩⟩
    on_goal 5 => exact ⟨hleaves, hout⟩
    all_goals
      rw [heq] at hout
      cases hout
  · rintro ⟨fresh, t, calls, hreach, hleaves, hout⟩
    refine reaches_step hreach ?_
    rw [searchStep, dayStep, if_neg (not_not.mpr hleaves.1), if_neg hleaves.2, if_neg hout]

lemma EndsAt.not_runsOut (hwf : e.WellFormed) (h : EndsAt e date r) : ¬RunsOut e date :=
  fun hruns => Outcome.not_out h ((comesTo_out_iff hwf).mpr hruns)

end DcmAgent.Cron
