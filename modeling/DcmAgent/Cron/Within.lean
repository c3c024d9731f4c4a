import Mathlib.Tactic
import DcmAgent.Cron.Search
import DcmAgent.Library.Bounded

/-!
# The search with its depth

`dcmCronParseDoNext` takes a recursion that is too deep for one that fails. Here the two are told
apart: `doNextWithin` is the same search as a computation with a bound. Its lookups always succeed.
-/

namespace DcmAgent.Cron

open Library

/-- After the search of a field: note that it is in place, or start over. -/
def settleWithin (recur : Tm → Bounded Tm) (resets : List Field) (field : Field) (old new : ℕ)
    (calendar : Tm) : Bounded (List Field × Tm) :=
  if old = new then pure (dcmCronParsePushToFieldsArr resets field, calendar)
  else recur calendar >>= fun calendar => pure (resets, calendar)

/-- `dcmCronParseDoNext`, which ends only if no call is deeper than the bound. -/
def doNextWithin (expr : DcmCronExpr) (dot : ℤ) : ℕ → Tm → Bounded Tm
  | 0, _ => .tooDeep
  | fuel + 1, calendar => do
    let recur := doNextWithin expr dot fuel
    let second := calendar.sec.toNat
    let (updateSecond, calendar) ← .ofOption <| dcmCronParseFindNext expr.seconds cronMaxSeconds
      second calendar .second .minute []
    let resets := if second = updateSecond then [Field.second] else []
    let minute := calendar.min.toNat
    let (updateMinute, calendar) ← .ofOption <| dcmCronParseFindNext expr.minutes cronMaxMinutes
      minute calendar .minute .hourOfDay resets
    let (resets, calendar) ← settleWithin recur resets .minute minute updateMinute calendar
    let hour := calendar.hour.toNat
    let (updateHour, calendar) ← .ofOption <| dcmCronParseFindNext expr.hours cronMaxHours hour
      calendar .hourOfDay .dayOfWeek resets
    let (resets, calendar) ← settleWithin recur resets .hourOfDay hour updateHour calendar
    let dayOfMonth := calendar.mday.toNat
    let (updateDayOfMonth, calendar) ← .ofOption <| dcmCronParseFindNextDay calendar
      expr.daysOfMonth dayOfMonth expr.daysOfWeek calendar.wday.toNat resets
    let (resets, calendar) ← settleWithin recur resets .dayOfMonth dayOfMonth updateDayOfMonth
      calendar
    let month := calendar.mon.toNat
    let (updateMonth, calendar) ← .ofOption <| dcmCronParseFindNext expr.months cronMaxMonths month
      calendar .month .year resets
    if month = updateMonth then pure calendar
    else if (calendar.year - dot) % 2 ^ 32 > cronMaxYearsDiff then .ofOption none
    else recur calendar

/-- The next firing, if no call is deeper than the bound. -/
def getNextWithin (fuel : ℕ) (expr : DcmCronExpr) (date : ℤ) : Option ℤ :=
  match dcmCronParseTime date with
  | none => some cronInvalidInstant
  | some calendar =>
    let original := timegm calendar
    if original = cronInvalidInstant then some cronInvalidInstant
    else
      (doNextWithin expr calendar.year fuel calendar).run.bind fun
        | none => some cronInvalidInstant
        | some calendar =>
          let calculated := timegm calendar
          if calculated = cronInvalidInstant then some cronInvalidInstant
          else if calculated = original then
            match checked (dcmCronParseAddToField calendar .second 1) with
            | none => some cronInvalidInstant
            | some calendar =>
              (doNextWithin expr calendar.year fuel calendar).run.map fun
                | none => cronInvalidInstant
                | some calendar => timegm calendar
          else some calculated

variable {e : DcmCronExpr} {dot t : ℤ} {rs : List Field}

/-! ### The same results -/

lemma agrees_settleWithin {recur : Tm → Bounded Tm} {recur' : Tm → Option Tm}
    (h : ∀ calendar, (recur calendar).Agrees (recur' calendar)) (resets : List Field)
    (field : Field) (old new : ℕ) (calendar : Tm) :
    (settleWithin recur resets field old new calendar).Agrees
      (settle recur' resets field old new calendar) := by
  unfold settleWithin settle
  split_ifs
  · exact Bounded.agrees_pure _
  · rw [Option.map_eq_bind]
    exact (h calendar).bind fun _ => Bounded.agrees_pure _

/-- The search that ends within its bound gives the result of the search. -/
theorem agrees_doNextWithin (e : DcmCronExpr) (dot : ℤ) (fuel : ℕ) (calendar : Tm) :
    (doNextWithin e dot fuel calendar).Agrees (dcmCronParseDoNext e dot fuel calendar) := by
  induction fuel generalizing calendar with
  | zero => exact Bounded.agrees_tooDeep _
  | succ fuel ih =>
    rw [doNextWithin, dcmCronParseDoNext]
    refine (Bounded.agrees_ofOption _).bind ?_
    rintro ⟨updateSecond, c₁⟩
    refine (Bounded.agrees_ofOption _).bind ?_
    rintro ⟨updateMinute, c₂⟩
    refine (agrees_settleWithin ih _ _ _ _ _).bind ?_
    rintro ⟨rs₂, c₂'⟩
    refine (Bounded.agrees_ofOption _).bind ?_
    rintro ⟨updateHour, c₃⟩
    refine (agrees_settleWithin ih _ _ _ _ _).bind ?_
    rintro ⟨rs₃, c₃'⟩
    refine (Bounded.agrees_ofOption _).bind ?_
    rintro ⟨updateDay, c₄⟩
    refine (agrees_settleWithin ih _ _ _ _ _).bind ?_
    rintro ⟨rs₄, c₄'⟩
    refine (Bounded.agrees_ofOption _).bind ?_
    rintro ⟨updateMonth, c₅⟩
    dsimp only
    split_ifs
    · exact Bounded.agrees_pure _
    · exact Bounded.agrees_ofOption _
    · exact ih _

/-! ### A larger bound -/

lemma extends_settleWithin {recur recur' : Tm → Bounded Tm}
    (h : ∀ calendar, (recur calendar).Extends (recur' calendar)) (resets : List Field)
    (field : Field) (old new : ℕ) (calendar : Tm) :
    (settleWithin recur resets field old new calendar).Extends
      (settleWithin recur' resets field old new calendar) := by
  unfold settleWithin
  split_ifs
  · exact .refl _
  · exact (h calendar).bind fun _ => .refl _

lemma extends_doNextWithin_succ (e : DcmCronExpr) (dot : ℤ) (fuel : ℕ) (calendar : Tm) :
    (doNextWithin e dot fuel calendar).Extends (doNextWithin e dot (fuel + 1) calendar) := by
  induction fuel generalizing calendar with
  | zero => exact Bounded.extends_tooDeep _
  | succ fuel ih =>
    rw [doNextWithin, doNextWithin]
    refine (Bounded.Extends.refl _).bind ?_
    rintro ⟨updateSecond, c₁⟩
    refine (Bounded.Extends.refl _).bind ?_
    rintro ⟨updateMinute, c₂⟩
    refine (extends_settleWithin ih _ _ _ _ _).bind ?_
    rintro ⟨rs₂, c₂'⟩
    refine (Bounded.Extends.refl _).bind ?_
    rintro ⟨updateHour, c₃⟩
    refine (extends_settleWithin ih _ _ _ _ _).bind ?_
    rintro ⟨rs₃, c₃'⟩
    refine (Bounded.Extends.refl _).bind ?_
    rintro ⟨updateDay, c₄⟩
    refine (extends_settleWithin ih _ _ _ _ _).bind ?_
    rintro ⟨rs₄, c₄'⟩
    refine (Bounded.Extends.refl _).bind ?_
    rintro ⟨updateMonth, c₅⟩
    dsimp only
    split_ifs
    · exact .refl _
    · exact .refl _
    · exact ih _

/-- With a larger bound the search ends with the same result. -/
theorem extends_doNextWithin (e : DcmCronExpr) (dot : ℤ) {fuel fuel' : ℕ} (hle : fuel ≤ fuel')
    (calendar : Tm) :
    (doNextWithin e dot fuel calendar).Extends (doNextWithin e dot fuel' calendar) := by
  induction hle with
  | refl => exact .refl _
  | step _ ih => exact fun o h => extends_doNextWithin_succ e dot _ calendar o (ih o h)

/-! ### The lookups succeed -/

lemma checked_true (c : Tm) : checked (true, c) = some c := rfl

lemma isSome_moveField {f : Field} {val : ℕ} (hrs : ∀ f ∈ rs, f.IsLow)
    (h0 : 0 ≤ timegm (putField (gmtime t) f val)) : (moveField (gmtime t) f val rs).isSome := by
  have hne : decide (timegm (putField (gmtime t) f val) ≠ -1) = true := decide_eq_true (by omega)
  rw [moveField, dcmCronParseSetField, normalize_eq, hne, checked_true, Option.bind_some,
    dcmCronParseResetAllMin_eq hrs h0, checked_true]
  rfl

/-- The search of a field succeeds when its moves do, and it meets no error on the roll-over: `t₁`
is the time after it, and `t₂` the one with the field at its minimum. -/
lemma isSome_dcmCronParseFindNext_of_moves {bits : Bits} {max v : ℕ} {f nf : Field} (t₁ t₂ : ℤ)
    (hmove : ∀ next, dcmCronParseNextSetBit bits max v = some next →
      (moveField (gmtime t) f next rs).isSome)
    (hadd : dcmCronParseAddToField (gmtime t) nf 1 = (decide (t₁ ≠ -1), gmtime t₁))
    (hreset : dcmCronParseResetMin (gmtime t₁) f = (decide (t₂ ≠ -1), gmtime t₂))
    (hroll : dcmCronParseNextSetBit bits max v = none → t₁ ≠ -1 ∧ t₂ ≠ -1 ∧
      (moveField (gmtime t₂) f ((dcmCronParseNextSetBit bits max 0).getD 0) rs).isSome) :
    (dcmCronParseFindNext bits max v (gmtime t) f nf rs).isSome := by
  rw [dcmCronParseFindNext]
  split
  · rename_i next hfound
    split_ifs
    · rw [Option.isSome_map]
      exact hmove next hfound
    · rfl
  · rename_i hnone
    obtain ⟨h₁, h₂, hmove₂⟩ := hroll hnone
    rw [hadd, decide_eq_true h₁, checked_true, Option.bind_some, hreset, decide_eq_true h₂,
      checked_true, Option.bind_some]
    split
    · rename_i next hfound
      rw [hfound] at hmove₂
      split_ifs
      · rw [Option.isSome_map]
        exact hmove₂
      · rfl
    · rename_i hnone₂
      rw [hnone₂] at hmove₂
      rw [Option.isSome_map]
      exact hmove₂

/-- It does when these times are not negative. -/
lemma isSome_dcmCronParseFindNext {bits : Bits} {max v : ℕ} {f nf : Field} (t₁ t₂ : ℤ)
    (hrs : ∀ f ∈ rs, f.IsLow)
    (hput : ∀ next : ℕ, v ≤ next → 0 ≤ timegm (putField (gmtime t) f next))
    (hadd : dcmCronParseAddToField (gmtime t) nf 1 = (decide (t₁ ≠ -1), gmtime t₁))
    (h₁ : 0 ≤ t₁) (hreset : dcmCronParseResetMin (gmtime t₁) f = (decide (t₂ ≠ -1), gmtime t₂))
    (h₂ : 0 ≤ t₂) (hput₂ : ∀ next : ℕ, 0 ≤ timegm (putField (gmtime t₂) f next)) :
    (dcmCronParseFindNext bits max v (gmtime t) f nf rs).isSome := by
  refine isSome_dcmCronParseFindNext_of_moves t₁ t₂ (fun next hfound => ?_) hadd hreset fun _ => ?_
  · exact isSome_moveField hrs (hput next (nextSetBit_eq_some hfound).1)
  · exact ⟨by omega, by omega, isSome_moveField hrs (hput₂ _)⟩

lemma isSome_dcmCronParseFindNext_unit {f nf : Field} {u : ℤ} {n : ℕ} (hU : UnitField f nf u n)
    (bits : Bits) (hrs : ∀ f ∈ rs, f.IsLow) (ht : 0 ≤ t) :
    (dcmCronParseFindNext bits n (t / u % n).toNat (gmtime t) f nf rs).isSome := by
  have hn : (0 : ℤ) < n := by exact_mod_cast hU.n_pos
  have hu := hU.u_pos
  have hv0 : 0 ≤ t / u % n := Int.emod_nonneg _ hn.ne'
  have hvn : t / u % n < n := Int.emod_lt_of_pos _ hn
  have hreset : resetTime (t + u * n) f = t + u * (n - t / u % n) := by
    rw [hU.reset, Int.add_mul_ediv_left _ _ hu.ne', Int.add_emod_right]
    ring
  have h₂ : 0 ≤ t + u * (n - t / u % n) := by
    have := mul_nonneg hu.le (sub_nonneg.mpr hvn.le)
    omega
  have hzero : (t + u * (n - t / u % n)) / u % n = 0 := by
    rw [Int.add_mul_ediv_left _ _ hu.ne', show t / u + (n - t / u % n) =
      t / u - t / u % n + n by ring, Int.add_emod_right, Int.sub_emod, Int.emod_emod, sub_self,
      Int.zero_emod]
  apply isSome_dcmCronParseFindNext (t + u * n) (t + u * (n - t / u % n)) hrs
  · intro next hnext
    rw [hU.put]
    have := mul_nonneg hu.le (show (0 : ℤ) ≤ next - t / u % n by omega)
    omega
  · exact hU.add t
  · have := mul_pos hu hn
    omega
  · rw [dcmCronParseResetMin_eq hU.isLow, hreset]
  · exact h₂
  · intro next
    rw [hU.put, hzero, sub_zero]
    have := mul_nonneg hu.le (Int.natCast_nonneg next)
    omega

lemma isSome_dcmCronParseFindNext_month (bits : Bits) (hrs : ∀ f ∈ rs, f.IsLow) (ht : 0 ≤ t) :
    (dcmCronParseFindNext bits 12 (monthOf (t / 86400) % 12).toNat (gmtime t) .month .year
      rs).isSome := by
  obtain ⟨z, hz⟩ : ∃ z, t / 86400 = z := ⟨_, rfl⟩
  obtain ⟨hlo, -⟩ := mdayOf_bounds z
  have hend := (monthOf_spec z).2
  have hjan := january_of_rollOver z
  obtain ⟨z₁, hz₁⟩ : ∃ z₁, monthStart (monthOf z + 12) + (mdayOf z - 1) = z₁ := ⟨_, rfl⟩
  obtain ⟨z₂, hz₂⟩ : ∃ z₂, monthStart (monthOf z₁ / 12 * 12) + (mdayOf z₁ - 1) = z₂ := ⟨_, rfl⟩
  simp only [hz₁, hz₂] at hjan
  have hstart : monthStart (monthOf z + 1) ≤ monthStart (monthOf z + 12) :=
    monthStart_strictMono.monotone (by omega)
  have hstart₂ : monthStart (monthOf z + 1) ≤ monthStart (monthOf z₂) :=
    monthStart_strictMono.monotone (by omega)
  have hle₂ := (monthOf_spec z₂).1
  have hlo₂ := (mdayOf_bounds z₂).1
  have hday₁ : (t + 86400 * (z₁ - z)) / 86400 = z₁ := by omega
  have hday₂ : (t + 86400 * (z₂ - z)) / 86400 = z₂ := by omega
  rw [hz]
  apply isSome_dcmCronParseFindNext (t + 86400 * (z₁ - z)) (t + 86400 * (z₂ - z)) hrs
  · intro next hnext
    rw [timegm_putField_month, hz]
    have hmono : monthStart (monthOf z) ≤ monthStart (monthOf z / 12 * 12 + next) :=
      monthStart_strictMono.monotone (by omega)
    have hday := monthStart_add_mdayOf z
    omega
  · rw [dcmCronParseAddToField_year, hz, hz₁]
  · omega
  · rw [dcmCronParseResetMin, normalize_eq, if_neg (by decide), timegm_putField_month, hday₁,
      add_zero, hz₂, show t + 86400 * (z₁ - z) + 86400 * (z₂ - z₁) = t + 86400 * (z₂ - z) by ring]
  · omega
  · intro next
    rw [timegm_putField_month, hday₂]
    have hmono : monthStart (monthOf z₂) ≤ monthStart (monthOf z₂ / 12 * 12 + next) :=
      monthStart_strictMono.monotone (by omega)
    omega

end DcmAgent.Cron
