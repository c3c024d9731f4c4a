import Mathlib.Tactic
import DcmAgent.Cron.Within

/-!
# What the search of one field leaves

`dcmCronParseFindNext` is to leave the field at the value that it returns, which is in the set,
with the lower fields at their minimum when that value is a new one (`Found`). The month is stored
while the day of the month is still the old one: where the new month is too short for it, `timegm`
carries the calendar over to the month after it.
-/

namespace DcmAgent.Cron

open Library

/-- The value of a field. -/
def getField (calendar : Tm) : Field → ℤ
  | .second => calendar.sec
  | .minute => calendar.min
  | .hourOfDay => calendar.hour
  | .dayOfWeek => calendar.wday
  | .dayOfMonth => calendar.mday
  | .month => calendar.mon
  | .year => calendar.year

/-- The value that the resets store in a field. -/
def Field.minimum : Field → ℤ
  | .dayOfMonth => 1
  | _ => 0

/-- The next field and the number of values, for the fields that `dcmCronParseDoNext` searches. -/
def Field.search : Field → Option (Field × ℕ)
  | .second => some (.minute, cronMaxSeconds)
  | .minute => some (.hourOfDay, cronMaxMinutes)
  | .hourOfDay => some (.dayOfWeek, cronMaxHours)
  | .month => some (.year, cronMaxMonths)
  | _ => none

/-- The fields that may be among the resets of a search. -/
def Field.lowerOrders : Field → List Field
  | .minute => [.second]
  | .hourOfDay => [.second, .minute]
  | .month => [.second, .minute, .hourOfDay, .dayOfMonth]
  | _ => []

/-- The calendar with some fields at their minimum. -/
def atMinimum (calendar : Tm) (fields : List Field) : Tm :=
  fields.foldl (fun calendar f => putField calendar f f.minimum) calendar

/-- What the search of a field is to leave. -/
structure Found (bits : Bits) (value : ℕ) (calendar : Tm) (field : Field)
    (lowerOrders : List Field) (next : ℕ) (calendar' : Tm) : Prop where
  mem : dcmCronParseGetBit bits next = true
  field_eq : getField calendar' field = next
  not_earlier : timegm (atMinimum calendar lowerOrders) ≤ timegm calendar'
  lower_eq : next ≠ value → ∀ f ∈ lowerOrders, getField calendar' f = f.minimum

/-- The number of a month, counted through. -/
def monthNumber (calendar : Tm) : ℤ := 12 * (calendar.year + 1900) + calendar.mon

/-- The day of the month exists in the next month of the set, from the present one on. -/
def DayExists (bits : Bits) (calendar : Tm) : Prop :=
  ∀ w, NextUnit bits 12 (monthNumber calendar) w → calendar.mday ≤ monthStart (w + 1) - monthStart w

/-- 1968-12-31 23:59:59, a year before the instant that stands for an error. -/
def beforeError : ℤ := -31536001

variable {bits : Bits} {rs : List Field} {t r : ℤ} {f nf : Field}

/-! ### Resets -/

lemma isLow_of_mem_lowerOrders {g : Field} (h : g ∈ f.lowerOrders) : g.IsLow := by
  cases f <;> simp only [Field.lowerOrders, List.mem_cons, List.not_mem_nil, or_false] at h
  · subst h
    trivial
  · rcases h with rfl | rfl <;> trivial
  · rcases h with rfl | rfl | rfl | rfl <;> trivial

/-- The fields that are reset are at their minimum. -/
lemma ResetSpec.getField_of_mem (h : ResetSpec rs t r) (hf : f.IsLow) (hmem : f ∈ rs) :
    getField (gmtime r) f = f.minimum := by
  cases f <;> simp only [Field.IsLow] at hf
  · exact h.sec.trans (if_pos hmem)
  · exact h.min.trans (if_pos hmem)
  · exact h.hour.trans (if_pos hmem)
  · have hday := h.day.trans (if_pos hmem)
    simp [getField, gmtime, hday, mdayOf, Field.minimum]

/-- The resets stay within the month. -/
lemma ResetSpec.monthOf_eq (h : ResetSpec rs t r) : monthOf (r / 86400) = monthOf (t / 86400) := by
  rw [h.day]
  split_ifs
  · exact monthOf_monthStart _
  · rfl

/-- A field at its minimum makes a calendar earlier, if at all. -/
lemma timegm_atMinimum_le {calendar : Tm} (hrs : ∀ f ∈ rs, f.IsLow) (hsec : 0 ≤ calendar.sec)
    (hmin : 0 ≤ calendar.min) (hhour : 0 ≤ calendar.hour) (hmday : 1 ≤ calendar.mday) :
    timegm (atMinimum calendar rs) ≤ timegm calendar := by
  induction rs generalizing calendar with
  | nil => exact le_rfl
  | cons f rs ih =>
    have hrest := fun g hg => hrs g (List.mem_cons_of_mem _ hg)
    have hf := hrs f List.mem_cons_self
    refine le_trans (@ih (putField calendar f f.minimum) hrest ?_ ?_ ?_ ?_) ?_
    all_goals cases f <;> simp only [Field.IsLow] at hf
    all_goals simp only [putField, Field.minimum, timegm]; omega

lemma timegm_atMinimum_gmtime_le (hrs : ∀ f ∈ rs, f.IsLow) (t : ℤ) :
    timegm (atMinimum (gmtime t) rs) ≤ t := by
  obtain ⟨⟨hsec, -⟩, ⟨hmin, -⟩, ⟨hhour, -⟩, ⟨hmday, -⟩, -⟩ := gmtime_bounds t
  have h := timegm_atMinimum_le hrs hsec hmin hhour hmday
  rwa [timegm_gmtime] at h

/-! ### Seconds, minutes and hours -/

/-- The search of a field that counts units of `u` seconds, whose resets stay within the unit. -/
lemma found_unit {u : ℤ} {n : ℕ} (hU : UnitField f nf u n)
    (hget : ∀ t, getField (gmtime t) f = t / u % n)
    (hkeep : ∀ t r, ResetSpec rs t r → r / u = t / u) (hbits : HasBit bits 0 n)
    (hrs : ∀ f ∈ rs, f.IsLow) {value next : ℕ} {cal : Tm} (hvalue : getField (gmtime t) f = value)
    (h : dcmCronParseFindNext bits n value (gmtime t) f nf rs = some (next, cal)) :
    Found bits value (gmtime t) f rs next cal := by
  have hu := hU.u_pos
  have hn : (0 : ℤ) < n := by exact_mod_cast hU.n_pos
  rw [hget] at hvalue
  have hvalue' : value = (t / u % n).toNat := by omega
  rw [hvalue'] at h ⊢
  obtain ⟨w, hw, rfl, rfl⟩ := dcmCronParseFindNext_unit hU hbits hrs h
  have hcast : ((w % n).toNat : ℤ) = w % n := Int.toNat_of_nonneg (Int.emod_nonneg w hn.ne')
  have hmin := timegm_atMinimum_gmtime_le hrs t
  by_cases hsame : w = t / u
  · rw [if_pos hsame]
    refine ⟨hw.mem, ?_, ?_, ?_⟩
    · rw [hget, hcast, hsame]
    · rw [timegm_gmtime]
      exact hmin
    · exact fun hne => absurd (hw.toNat_eq_iff.mpr hsame).symm hne
  · rw [if_neg hsame]
    have hspec := resetSpec_resetTimes hrs (t + u * (w - t / u))
    have hunit : resetTimes (t + u * (w - t / u)) rs / u = w := by
      rw [hkeep _ _ hspec, Int.add_mul_ediv_left _ _ hu.ne']
      ring
    refine ⟨hw.mem, ?_, ?_, fun _ f hf => hspec.getField_of_mem (hrs f hf) hf⟩
    · rw [hget, hcast, hunit]
    · rw [timegm_gmtime]
      by_contra hlt
      have := Int.ediv_le_ediv hu (show resetTimes (t + u * (w - t / u)) rs ≤ t by omega)
      have := hw.le
      omega

/-! ### Months -/

/-- A pattern with these months. -/
def withMonths (bits : Bits) : DcmCronExpr := { DcmCronExpr.zero with months := bits }

lemma monthNumber_gmtime (t : ℤ) : monthNumber (gmtime t) = monthOf (t / 86400) := gmtime_month t

/-- The day exists in the next month of the set just when the search ends in that month, and not in
the month after it. -/
lemma dayExists_gmtime_iff (hbits : HasBit bits 0 12) (t : ℤ) :
    DayExists bits (gmtime t) ↔ monthOf (monthMove (withMonths bits) (t / 86400)) =
      nextMonth (withMonths bits) (monthOf (t / 86400)) := by
  have hunit : NextUnit bits 12 (monthOf (t / 86400)) _ :=
    exists_nextUnit_month (e := withMonths bits) hbits _
  have hmday : (gmtime t).mday = mdayOf (t / 86400) := rfl
  rw [monthOf_monthMove (e := withMonths bits) hbits, DayExists, monthNumber_gmtime, hmday]
  constructor
  · intro h
    exact if_pos (h _ hunit)
  · intro h w hw
    rw [hw.unique hunit]
    by_contra hlt
    rw [if_neg hlt] at h
    omega

lemma dayExists_of_inSet {t : ℤ} (h : InSet bits (gmtime t).mon) : DayExists bits (gmtime t) := by
  intro w hw
  rw [monthNumber_gmtime] at hw
  have hsame : monthOf (t / 86400) = w := by
    by_contra hne
    exact hw.skip _ le_rfl (lt_of_le_of_ne hw.le hne) h
  rw [← hsame]
  exact mdayOf_le (t / 86400)

/-- The search of a month. -/
lemma found_month_iff (hbits : HasBit bits 0 12) (hrs : ∀ f ∈ rs, f.IsLow) {value next : ℕ}
    {cal : Tm} (hvalue : getField (gmtime t) .month = value)
    (h : dcmCronParseFindNext bits 12 value (gmtime t) .month .year rs = some (next, cal)) :
    Found bits value (gmtime t) .month rs next cal ↔ DayExists bits (gmtime t) := by
  have hmon : monthOf (t / 86400) % 12 = value := hvalue
  have hvalue' : value = (monthOf (t / 86400) % 12).toNat := by omega
  have hmin := timegm_atMinimum_gmtime_le hrs t
  have h' := h
  rw [hvalue'] at h'
  rcases dcmCronParseFindNext_month (e := withMonths bits) hbits hrs h' with
    ⟨hin, rfl, rfl⟩ | ⟨hno, -, rfl, rfl⟩
  · refine iff_of_true ⟨hin, ?_, ?_, ?_⟩ (dayExists_of_inSet hin)
    · exact hmon.trans (congrArg _ hvalue')
    · rw [timegm_gmtime]
      exact hmin
    · exact fun hne => absurd hvalue'.symm hne
  · have hunit := exists_nextUnit_month (e := withMonths bits) hbits (monthOf (t / 86400))
    have hlt := lt_nextMonth (e := withMonths bits) hbits hno
    have hmonth := monthOf_monthMove (e := withMonths bits) hbits (t / 86400)
    have hspec := resetSpec_resetTimes hrs
      (t + 86400 * (monthMove (withMonths bits) (t / 86400) - t / 86400))
    have hend := hspec.monthOf_eq
    rw [show (t + 86400 * (monthMove (withMonths bits) (t / 86400) - t / 86400)) / 86400 =
      monthMove (withMonths bits) (t / 86400) by omega] at hend
    rw [dayExists_gmtime_iff hbits]
    generalize resetTimes _ rs = r at *
    generalize nextMonth (withMonths bits) (monthOf (t / 86400)) = w at *
    constructor
    · intro hfound
      have hfield : monthOf (r / 86400) % 12 = ((w % 12).toNat : ℕ) := hfound.field_eq
      split_ifs at hmonth <;> omega
    · intro hw
      refine ⟨hunit.mem, ?_, ?_, fun _ f hf => hspec.getField_of_mem (hrs f hf) hf⟩
      · have hfield : monthOf (r / 86400) % 12 = w % 12 := by rw [hend, hw]
        exact hfield.trans (by omega)
      · rw [timegm_gmtime]
        by_contra hearlier
        have := monthOf_mono (show r / 86400 ≤ t / 86400 by omega)
        omega

/-! ### Errors of the month search -/

/-- From the last second of 1968 the roll-over leads to the instant that stands for an error. -/
lemma findNext_beforeError {value : ℕ} (hvalue : getField (gmtime beforeError) .month = value)
    (hno : ¬InSet bits (gmtime beforeError).mon) (rs : List Field) :
    dcmCronParseFindNext bits 12 value (gmtime beforeError) .month .year rs = none := by
  have h11 : (gmtime beforeError).mon = 11 := by decide
  have hvalue' : value = 11 := by
    rw [getField, h11] at hvalue
    omega
  rw [h11] at hno
  have hnone : dcmCronParseNextSetBit bits 12 11 = none := by
    simpa [dcmCronParseNextSetBit, InSet] using hno
  have hadd : dcmCronParseAddToField (gmtime beforeError) .year 1 = (false, gmtime (-1)) := by
    decide
  rw [hvalue', dcmCronParseFindNext, hnone, hadd]
  rfl

/-- The error instant is on a 31st. -/
lemma mdayOf_neg_one : mdayOf (-1 / 86400) = 31 := by decide

lemma mdayOf_resetTime {f : Field} (hf : f.IsLow) (h : mdayOf (t / 86400) ≠ 31) :
    mdayOf (resetTime t f / 86400) ≠ 31 := by
  rw [(resetSpec_resetTime hf t).day]
  split_ifs
  · simp [mdayOf]
  · exact h

/-- Before the 31st the resets meet no error. -/
lemma isSome_moveField_of_mday (hrs : ∀ f ∈ rs, f.IsLow) {val : ℕ}
    (h : mdayOf (timegm (putField (gmtime t) f val) / 86400) ≠ 31) :
    (moveField (gmtime t) f val rs).isSome := by
  have hresets : ∀ t, mdayOf (t / 86400) ≠ 31 →
      (checked (dcmCronParseResetAllMin (gmtime t) rs)).isSome := by
    induction rs with
    | nil => exact fun _ _ => rfl
    | cons f rs ih =>
      intro t ht
      have hday := mdayOf_resetTime (hrs f List.mem_cons_self) ht
      have hne : resetTime t f ≠ -1 := fun heq => hday (heq ▸ mdayOf_neg_one)
      rw [dcmCronParseResetAllMin, dcmCronParseResetMin_eq (hrs f List.mem_cons_self),
        decide_eq_true hne]
      exact ih (fun g hg => hrs g (List.mem_cons_of_mem _ hg)) _ hday
  have hne : timegm (putField (gmtime t) f val) ≠ -1 := fun heq => h (heq ▸ mdayOf_neg_one)
  rw [moveField, dcmCronParseSetField, normalize_eq, decide_eq_true hne, checked_true,
    Option.bind_some]
  exact hresets _ h

/-- A day that a month does not have is one of the first days of the month after it. -/
lemma mdayOf_of_short {k d : ℤ} (hlo : 1 ≤ d) (hhi : d ≤ 31)
    (hshort : monthStart (k + 1) - monthStart k < d) : mdayOf (monthStart k + (d - 1)) ≠ 31 := by
  have hmonth := monthOf_mday (k := k) hlo hhi
  rw [if_neg (by omega)] at hmonth
  have := (monthStart_succ k).1
  rw [mdayOf, hmonth]
  omega

/-- A year after a day that is not in the leap February, the error instant is met from the last
second of 1968 only. -/
lemma eq_beforeError (hkeep : mdayOf (monthStart (monthOf (t / 86400) + 12) +
      (mdayOf (t / 86400) - 1)) = mdayOf (t / 86400))
    (h : t + 86400 * (monthStart (monthOf (t / 86400) + 12) + (mdayOf (t / 86400) - 1) -
      t / 86400) = -1) : t = beforeError := by
  obtain ⟨hlo, hhi⟩ := mdayOf_bounds (t / 86400)
  have hmonth := monthOf_mday (k := monthOf (t / 86400) + 12) hlo hhi
  have hstart := monthStart_add_mdayOf (t / 86400)
  have hday : monthStart (monthOf (t / 86400) + 12) + (mdayOf (t / 86400) - 1) = -1 := by omega
  have hlast : monthOf (-1) = 23639 ∧ mdayOf (-1) = 31 := by decide
  rw [hday, hlast.2] at hkeep
  rw [hday, hlast.1, ← hkeep] at hmonth
  split_ifs at hmonth
  · have hk : monthOf (t / 86400) = 23627 := by omega
    have hdecember : monthStart 23627 = -396 := by decide
    rw [hk, hdecember, ← hkeep] at hstart
    rw [hday] at h
    unfold beforeError
    omega
  · have hk : monthOf (t / 86400) + 12 = 23638 := by omega
    have hnovember : monthStart 23638 = -61 := by decide
    rw [hk, hnovember, ← hkeep] at hday
    omega

/-- Where the day does not exist in the next month of the set, the search still ends without an
error, except for the last second of 1968. -/
lemma isSome_findNext_of_short (hbits : HasBit bits 0 12) (hrs : ∀ f ∈ rs, f.IsLow) {value : ℕ}
    (hvalue : getField (gmtime t) .month = value) (hday : ¬DayExists bits (gmtime t))
    (ht : t ≠ beforeError) :
    (dcmCronParseFindNext bits 12 value (gmtime t) .month .year rs).isSome := by
  obtain ⟨w, hw, hshort⟩ : ∃ w, NextUnit bits 12 (monthOf (t / 86400)) w ∧
      monthStart (w + 1) - monthStart w < mdayOf (t / 86400) := by
    simp only [DayExists, monthNumber_gmtime, not_forall, not_le] at hday
    obtain ⟨w, hw, hshort⟩ := hday
    exact ⟨w, hw, hshort⟩
  have hv : monthOf (t / 86400) % (12 : ℕ) = value := hvalue
  obtain ⟨z, hz⟩ : ∃ z, t / 86400 = z := ⟨_, rfl⟩
  rw [hz] at hw hshort hv
  obtain ⟨hlo, hhi⟩ := mdayOf_bounds z
  -- the day keeps its number on the roll-over: January has all days
  have hroll : monthOf z / 12 < w / 12 →
      mdayOf (monthStart (monthOf z + 12) + (mdayOf z - 1)) = mdayOf z := by
    intro hyear
    rcases mdayOf_rollOver z with h | ⟨hfeb, h29, -⟩
    · exact h
    · have := hw.lt
      have := monthStart_succ_of_long (k := w) (by omega)
      omega
  have hjan := january_of_rollOver z
  obtain ⟨z₁, hz₁⟩ : ∃ z₁, monthStart (monthOf z + 12) + (mdayOf z - 1) = z₁ := ⟨_, rfl⟩
  obtain ⟨z₂, hz₂⟩ : ∃ z₂, monthStart (monthOf z₁ / 12 * 12) + (mdayOf z₁ - 1) = z₂ := ⟨_, rfl⟩
  simp only [hz₁, hz₂] at hjan
  have hday₁ : (t + 86400 * (z₁ - z)) / 86400 = z₁ := by omega
  have hday₂ : (t + 86400 * (z₂ - z)) / 86400 = z₂ := by omega
  apply isSome_dcmCronParseFindNext_of_moves (t + 86400 * (z₁ - z)) (t + 86400 * (z₂ - z))
  · intro next hfound
    apply isSome_moveField_of_mday hrs
    have hnext := (nextUnit_of_found hv hfound).unique hw
    rw [timegm_putField_month, hz, show monthOf z / 12 * 12 + (next : ℤ) = w by omega,
      show (t + 86400 * (monthStart w + (mdayOf z - 1) - z)) / 86400 =
        monthStart w + (mdayOf z - 1) by omega]
    exact mdayOf_of_short hlo hhi hshort
  · rw [dcmCronParseAddToField_year, hz, hz₁]
  · rw [dcmCronParseResetMin, normalize_eq, if_neg (by decide), timegm_putField_month, hday₁,
      add_zero, hz₂, show t + 86400 * (z₁ - z) + 86400 * (z₂ - z₁) = t + 86400 * (z₂ - z) by ring]
  · intro hnone
    obtain ⟨next, hfound⟩ := exists_nextSetBit_zero hbits
    obtain ⟨-, hlt, -, -⟩ := nextSetBit_eq_some hfound
    obtain ⟨-, hunit⟩ := nextUnit_of_wrapped hv hnone hfound
    have hnext := hunit.unique hw
    have hkeep := hroll (by omega)
    rw [hz₁] at hkeep
    refine ⟨?_, ?_, ?_⟩
    · intro herror
      apply ht
      apply eq_beforeError
      · rw [hz, hz₁, hkeep]
      · rw [hz, hz₁]
        exact herror
    · intro herror
      have : monthOf (-1) = 23639 := by decide
      have : z₂ = -1 := by omega
      subst this
      omega
    · apply isSome_moveField_of_mday hrs
      rw [hfound, Option.getD_some, timegm_putField_month, hday₂,
        show monthOf z₂ / 12 * 12 + (next : ℤ) = w by omega, hjan.2, hkeep,
        show (t + 86400 * (z₂ - z) + 86400 * (monthStart w + (mdayOf z - 1) - z₂)) / 86400 =
          monthStart w + (mdayOf z - 1) by omega]
      exact mdayOf_of_short hlo hhi hshort

/-! ### The search of a field -/

/-- The resets of the fields below it do not change the unit of a field. -/
lemma ResetSpec.ediv_eq {u : ℤ} (hu : f = .second ∧ u = 1 ∨ f = .minute ∧ u = 60 ∨
    f = .hourOfDay ∧ u = 3600) (hrs : ∀ g ∈ rs, g ∈ f.lowerOrders) (h : ResetSpec rs t r) :
    r / u = t / u := by
  have hnot {g : Field} (hg : g ∉ f.lowerOrders) : g ∉ rs := fun hmem => hg (hrs g hmem)
  have hsec := h.sec
  have hmin := h.min
  have hhour := h.hour
  have hday := h.day
  rcases hu with ⟨rfl, rfl⟩ | ⟨rfl, rfl⟩ | ⟨rfl, rfl⟩
  · rw [if_neg (hnot (by decide))] at hsec hmin hhour hday
    omega
  · rw [if_neg (hnot (by decide))] at hmin hhour hday
    omega
  · rw [if_neg (hnot (by decide))] at hhour hday
    omega

lemma found_of_ne_month {max : ℕ} (hsearch : f.search = some (nf, max)) (hmonth : f ≠ .month)
    (hbits : HasBit bits 0 max) (hrs : ∀ g ∈ rs, g ∈ f.lowerOrders) {value next : ℕ} {cal : Tm}
    (hvalue : getField (gmtime t) f = value)
    (h : dcmCronParseFindNext bits max value (gmtime t) f nf rs = some (next, cal)) :
    Found bits value (gmtime t) f rs next cal := by
  have hlow : ∀ g ∈ rs, g.IsLow := fun g hg => isLow_of_mem_lowerOrders (hrs g hg)
  cases f with
  | second =>
    obtain ⟨rfl, rfl⟩ := Prod.mk.inj (Option.some.inj hsearch)
    refine found_unit unitField_second (fun t => ?_) (fun t r hr => ?_) hbits hlow hvalue h
    · rw [Int.ediv_one]
      rfl
    · exact hr.ediv_eq (.inl ⟨rfl, rfl⟩) hrs
  | minute =>
    obtain ⟨rfl, rfl⟩ := Prod.mk.inj (Option.some.inj hsearch)
    refine found_unit unitField_minute (fun _ => rfl) (fun t r hr => ?_) hbits hlow hvalue h
    exact hr.ediv_eq (.inr (.inl ⟨rfl, rfl⟩)) hrs
  | hourOfDay =>
    obtain ⟨rfl, rfl⟩ := Prod.mk.inj (Option.some.inj hsearch)
    refine found_unit unitField_hour (fun _ => rfl) (fun t r hr => ?_) hbits hlow hvalue h
    exact hr.ediv_eq (.inr (.inr ⟨rfl, rfl⟩)) hrs
  | month => exact absurd rfl hmonth
  | dayOfWeek | dayOfMonth | year => cases hsearch

/-- The search of a field leaves what it is to leave, unless the month moves to one that the day of
the month does not exist in. From the last second of 1968 it ends with an error there. -/
theorem findsNext_iff {field nextField : Field} {max : ℕ}
    (hsearch : field.search = some (nextField, max)) {bits : Bits} (hbits : HasBit bits 0 max)
    {calendar : Tm} (hcal : gmtime (timegm calendar) = calendar) {value : ℕ}
    (hvalue : getField calendar field = value) {lowerOrders : List Field}
    (hlower : ∀ f ∈ lowerOrders, f ∈ field.lowerOrders) :
    (∀ next calendar', dcmCronParseFindNext bits max value calendar field nextField lowerOrders =
        some (next, calendar') →
      Found bits value calendar field lowerOrders next calendar') ↔
      (field = .month → DayExists bits calendar ∨ timegm calendar = beforeError) := by
  have hlow : ∀ g ∈ lowerOrders, g.IsLow := fun g hg => isLow_of_mem_lowerOrders (hlower g hg)
  obtain ⟨t, ht⟩ : ∃ t, timegm calendar = t := ⟨_, rfl⟩
  rw [ht] at hcal ⊢
  subst hcal
  by_cases hmonth : field = .month
  · subst hmonth
    obtain ⟨rfl, rfl⟩ := Prod.mk.inj (Option.some.inj hsearch)
    constructor
    · intro h _
      by_contra hnot
      obtain ⟨hday, hne⟩ := not_or.mp hnot
      obtain ⟨⟨next, cal⟩, hsome⟩ :=
        Option.isSome_iff_exists.mp (isSome_findNext_of_short hbits hlow hvalue hday hne)
      exact hday ((found_month_iff hbits hlow hvalue hsome).mp (h next cal hsome))
    · intro h next cal hsome
      rw [found_month_iff hbits hlow hvalue hsome]
      rcases h rfl with hday | rfl
      · exact hday
      · by_contra hday
        have hno : ¬InSet bits (gmtime beforeError).mon := fun hin => hday (dayExists_of_inSet hin)
        cases (findNext_beforeError hvalue hno lowerOrders).symm.trans hsome
  · refine iff_of_true (fun next cal h => ?_) fun h => absurd h hmonth
    exact found_of_ne_month hsearch hmonth hbits hlower hvalue h

/-- From January 31 to March 31. -/
theorem march_found : Found [4, 0] 0 (gmtime 2592000) .month [.second] 2 (gmtime 7689600) := by
  have hday : DayExists [4, 0] (gmtime 2592000) :=
    (dayExists_gmtime_iff ⟨2, by decide⟩ 2592000).mpr (by decide)
  exact (@findsNext_iff .month .year 12 rfl [4, 0] ⟨2, by decide⟩ (gmtime 2592000) (by decide) 0
    (by decide) [.second] (by decide)).mpr (fun _ => .inl hday) 2 (gmtime 7689600) (by decide)

/-- From January 31 the search of February returns February and leaves March 1. -/
theorem february_not_found :
    ¬∀ next calendar', dcmCronParseFindNext [2, 0] cronMaxMonths 0 (gmtime 2592000) .month .year
        [.second, .minute, .hourOfDay, .dayOfMonth] = some (next, calendar') →
      Found [2, 0] 0 (gmtime 2592000) .month [.second, .minute, .hourOfDay, .dayOfMonth] next
        calendar' := by
  intro h
  have hmonth := (h 1 (gmtime 5097600) (by decide)).field_eq
  exact absurd hmonth (by decide)

end DcmAgent.Cron
