import Mathlib.Tactic
import DcmAgent.Cron.Machine
import DcmAgent.Cron.Within

/-!
# The search does what the machine does

Every call of the search comes to the place that the machine says: a call that ends has found a
matching time, or it ends at a stop with the calls around it waiting, and the search fails only when
the machine runs out of years. Each call inside a call starts at a later time, so when the machine
calls only before some time, the seconds until then are a bound on the depth of the calls.
-/

namespace DcmAgent.Cron

open Library StateTransition

variable {e : DcmCronExpr} {dot t t₁ a r w : ℤ} {c₀ : Config} {fresh : Bool} {calls : List Pending}
  {rs rs' : List Field} {fails : Prop}

/-! ### The stages -/

lemma ends_findNext_unit {f nf : Field} {u : ℤ} {n : ℕ} (hU : UnitField f nf u n) {bits : Bits}
    (hbits : HasBit bits 0 n) (hrs : ∀ f ∈ rs, f.IsLow) (ht : 0 ≤ t) :
    (Bounded.ofOption (dcmCronParseFindNext bits n (t / u % n).toNat (gmtime t) f nf rs)).Ends
      fails fun p => ∃ w, NextUnit bits n (t / u) w ∧ p = ((w % n).toNat,
        gmtime (if w = t / u then t else moveUnit u w t rs)) := by
  refine .ofOption (fun hnone => ?_) fun p hp => ?_
  · exact absurd (isSome_dcmCronParseFindNext_unit hU bits hrs ht) (by simp [hnone])
  · obtain ⟨w, hw, h₁, h₂⟩ := dcmCronParseFindNext_unit hU hbits hrs hp
    exact ⟨w, hw, Prod.ext h₁ h₂⟩

lemma ends_second (hwf : e.WellFormed) (ht : 0 ≤ t) :
    (Bounded.ofOption (dcmCronParseFindNext e.seconds cronMaxSeconds (gmtime t).sec.toNat
      (gmtime t) .second .minute [])).Ends fails fun p =>
        ∃ t₁, NextUnit e.seconds 60 t t₁ ∧ p = ((t₁ % 60).toNat, gmtime t₁) := by
  have h : (Bounded.ofOption (dcmCronParseFindNext e.seconds (60 : ℕ) (t / 1 % (60 : ℕ)).toNat
      (gmtime t) .second .minute [])).Ends fails _ :=
    ends_findNext_unit unitField_second hwf.seconds (by simp) ht
  simp only [Int.ediv_one] at h
  refine h.mono ?_
  rintro _ ⟨t₁, hw, rfl⟩
  refine ⟨t₁, hw, ?_⟩
  split_ifs with heq
  · rw [heq]
    rfl
  · simp [moveUnit, resetTimes]

lemma ends_settleWithin {recur : Tm → Bounded Tm} {f : Field} {u : ℤ} {n : ℕ} {bits : Bits}
    {Q : List Field × Tm → Prop} (hw : NextUnit bits n (t / u) w)
    (hplace : w = t / u → Q (dcmCronParsePushToFieldsArr rs f, gmtime t))
    (hmove : w ≠ t / u → (recur (gmtime (moveUnit u w t rs))).Ends fails fun c => Q (rs, c)) :
    (settleWithin recur rs f (t / u % n).toNat (w % n).toNat
      (gmtime (if w = t / u then t else moveUnit u w t rs))).Ends fails Q := by
  unfold settleWithin
  by_cases heq : w = t / u
  · rw [if_pos (hw.toNat_eq_iff.mpr heq), if_pos heq]
    exact .pure (hplace heq)
  · rw [if_neg fun h => heq (hw.toNat_eq_iff.mp h), if_neg heq]
    exact (hmove heq).bind fun c hc => .pure hc

lemma ends_findNextDay (hrs : ∀ f ∈ rs, f.IsLow) (hday : Field.dayOfMonth ∉ rs) (ht : 0 ≤ t) :
    (Bounded.ofOption (dcmCronParseFindNextDay (gmtime t) e.daysOfMonth (mdayOf (t / 86400)).toNat
      e.daysOfWeek (wdayOf (t / 86400)).toNat rs)).Ends fails fun p => ∃ s, DayMoved e rs t s ∧
        p = ((mdayOf (nextDay e (t / 86400))).toNat, gmtime s) := by
  obtain ⟨s, heq, hs⟩ := dcmCronParseFindNextDay_eq e hrs hday ht
  rw [heq]
  refine .ofOption (fun h => nomatch h) fun p hp => ⟨s, hs, (Option.some.inj hp).symm⟩

lemma ends_settleWithin_day {recur : Tm → Bounded Tm} {z z' : ℤ} {Q : List Field × Tm → Prop}
    (hplace : mdayOf z' = mdayOf z → Q (dcmCronParsePushToFieldsArr rs .dayOfMonth, gmtime t))
    (hmove : mdayOf z' ≠ mdayOf z → (recur (gmtime t)).Ends fails fun c => Q (rs, c)) :
    (settleWithin recur rs .dayOfMonth (mdayOf z).toNat (mdayOf z').toNat (gmtime t)).Ends
      fails Q := by
  unfold settleWithin
  by_cases heq : mdayOf z' = mdayOf z
  · rw [if_pos (toNat_mdayOf_eq_iff.mpr heq)]
    exact .pure (hplace heq)
  · rw [if_neg fun h => heq (toNat_mdayOf_eq_iff.mp h)]
    exact (hmove heq).bind fun c hc => .pure hc

lemma ends_findNext_month (hm : HasBit e.months 0 12) (hrs : ∀ f ∈ rs, f.IsLow) (ht : 0 ≤ t) :
    (Bounded.ofOption (dcmCronParseFindNext e.months 12 (monthOf (t / 86400) % 12).toNat
      (gmtime t) .month .year rs)).Ends fails fun p =>
        (MonthIn e (monthOf (t / 86400)) ∧ p = ((monthOf (t / 86400) % 12).toNat, gmtime t)) ∨
        (¬MonthIn e (monthOf (t / 86400)) ∧ (monthOf (t / 86400) % 12).toNat ≠ p.1 ∧
          p.2 = gmtime (moveMonth e t rs)) := by
  refine .ofOption (fun hnone => ?_) fun p hp => ?_
  · exact absurd (isSome_dcmCronParseFindNext_month e.months hrs ht) (by simp [hnone])
  · rcases dcmCronParseFindNext_month hm hrs hp with ⟨hin, h₁, h₂⟩ | ⟨hno, h₁, h₂, -⟩
    · exact Or.inl ⟨hin, Prod.ext h₁ h₂⟩
    · exact Or.inr ⟨hno, h₁.symm, h₂⟩

/-! ### What the calls keep to -/

/-- The seconds are one of the resets when they have been in place. -/
def Resets (fresh : Bool) (rs : List Field) : Prop := Field.second ∈ rs ↔ fresh = true

/-- A call ends at a matching time, or at a stop in a month of the pattern. -/
inductive Outcome (e : DcmCronExpr) (dot : ℤ) (c₀ : Config) (calls : List Pending) (r : ℤ) :
    Prop where
  | found : Matches e r → Reaches (searchStep e dot) c₀ (.found r) → Outcome e dot c₀ calls r
  | stop : ¬Matches e r → r / 60 = 1440 * (r / 86400) → MonthIn e (monthOf (r / 86400)) →
      Reaches (searchStep e dot) c₀ (.stop r calls) → Outcome e dot c₀ calls r

/-- The result of a call from `t`. -/
def Result (e : DcmCronExpr) (dot : ℤ) (c₀ : Config) (calls : List Pending) (t : ℤ) (c : Tm) :
    Prop :=
  ∃ r, c = gmtime r ∧ t ≤ r ∧ Outcome e dot c₀ calls r

/-- The calls inside a call from `t`. -/
def Calls (e : DcmCronExpr) (dot : ℤ) (c₀ : Config) (t : ℤ) (recur : Tm → Bounded Tm) : Prop :=
  ∀ a calls, t < a → Reaches (searchStep e dot) c₀ (.call a calls) →
    (recur (gmtime a)).Ends (Reaches (searchStep e dot) c₀ .out) (Result e dot c₀ calls a)

lemma Calls.mono {recur : Tm → Bounded Tm} (h : Calls e dot c₀ t recur) (hle : t ≤ a) :
    Calls e dot c₀ a recur :=
  fun b calls hlt => h b calls (hle.trans_lt hlt)

lemma Outcome.month (h : Outcome e dot c₀ calls r) : MonthIn e (monthOf (r / 86400)) := by
  cases h with
  | found hmatch _ => exact hmatch.mon
  | stop _ _ hmonth _ => exact hmonth

lemma Resets.secondAfter (h : Resets fresh rs) (t : ℤ) :
    (if Field.second ∈ rs then 0 else t % 60) = secondAfter fresh t := if_congr h rfl rfl

lemma Resets.push {f : Field} (h : Resets fresh rs) (hne : Field.second ≠ f) :
    Resets fresh (dcmCronParsePushToFieldsArr rs f) := (mem_push_of_ne hne).trans h

/-- The second is in place at the start of the call when the second search stays. -/
lemma resets_second (hw₁ : NextUnit e.seconds 60 t t₁) :
    Resets (secondIn e t)
      (if (gmtime t).sec.toNat = (t₁ % 60).toNat then [Field.second] else []) := by
  have hiff : (gmtime t).sec.toNat = (t₁ % 60).toNat ↔ InSet e.seconds (t % 60) := by
    refine hw₁.toNat_eq_iff.trans ⟨fun heq => heq ▸ hw₁.mem, hw₁.eq_of_mem⟩
  rw [Resets, secondIn, decide_eq_true_eq, ← hiff]
  split_ifs with h <;> simp [h]

/-! ### The minute and the hour -/

/-- What holds before the hour search: the minute is in place, or a call has ended. -/
inductive BeforeHour (e : DcmCronExpr) (dot : ℤ) (c₀ : Config) (fresh : Bool)
    (calls : List Pending) (t₁ : ℤ) (rs : List Field) (t : ℤ) : Prop where
  | place : InSet e.minutes (t₁ / 60 % 60) → Field.minute ∈ rs → t = t₁ →
      BeforeHour e dot c₀ fresh calls t₁ rs t
  | ended : Outcome e dot c₀ (.minute fresh :: calls) t → BeforeHour e dot c₀ fresh calls t₁ rs t

/-- The fields of the time of day are in place or at their minimum. -/
structure DayReady (e : DcmCronExpr) (rs : List Field) (t : ℤ) : Prop where
  minute : Field.minute ∈ rs ∨ t / 60 % 60 = 0
  hour : Field.hourOfDay ∈ rs ∨ t / 3600 % 24 = 0
  tod : TodIn e t ∨ t / 60 = 1440 * (t / 86400)

/-- What holds before the day search: a matching time has been found, or the day search is next. -/
inductive BeforeDay (e : DcmCronExpr) (dot : ℤ) (c₀ : Config) (fresh : Bool)
    (calls : List Pending) (rs : List Field) (t : ℤ) : Prop where
  | found : Matches e t → Reaches (searchStep e dot) c₀ (.found t) →
      BeforeDay e dot c₀ fresh calls rs t
  | ready : DayReady e rs t → Reaches (searchStep e dot) c₀ (.day fresh t calls) →
      BeforeDay e dot c₀ fresh calls rs t

lemma dayReady_of_midnight (rs : List Field) (h : t / 60 = 1440 * (t / 86400)) :
    DayReady e rs t :=
  ⟨Or.inr (by omega), Or.inr (by omega), Or.inr h⟩

/-- The call that has moved its hour goes on with its day search. -/
lemma Outcome.beforeDay (h : Outcome e dot c₀ (.hour fresh :: calls) t) (rs : List Field) :
    BeforeDay e dot c₀ fresh calls rs t := by
  cases h with
  | found hmatch hreach => exact .found hmatch hreach
  | stop _ hmid _ hreach => exact .ready (dayReady_of_midnight rs hmid) (hreach.tail rfl)

section Call

variable {recur : Tm → Bounded Tm} (hreach : Reaches (searchStep e dot) c₀ (.call t calls))
  (hw₁ : NextUnit e.seconds 60 t t₁) (hrec : Calls e dot c₀ t recur)
  (hresets : Resets (secondIn e t) rs)

include hreach hw₁ hrec hresets

/-- The minute stage. -/
lemma ends_minute (hrs : Below rs [.second]) (hw : NextUnit e.minutes 60 (t₁ / 60) w) :
    (settleWithin recur rs .minute (t₁ / 60 % 60).toNat (w % 60).toNat
      (gmtime (if w = t₁ / 60 then t₁ else moveUnit 60 w t₁ rs))).Ends
        (Reaches (searchStep e dot) c₀ .out) fun p =>
          ∃ t₂, p.2 = gmtime t₂ ∧ t ≤ t₂ ∧ Below p.1 [.minute, .second] ∧
            Resets (secondIn e t) p.1 ∧ BeforeHour e dot c₀ (secondIn e t) calls t₁ p.1 t₂ := by
  have hle₁ := hw₁.le
  refine ends_settleWithin (n := 60) hw (fun heq => ?_) fun hne => ?_
  · exact ⟨t₁, rfl, hle₁, hrs.push fun g hg => mem_push.mp hg, hresets.push (by decide),
      .place (heq ▸ hw.mem) (mem_push.mpr (Or.inr rfl)) rfl⟩
  · obtain ⟨hmin, hsec⟩ := moveUnit_minute hrs w t₁
    rw [hresets.secondAfter] at hsec
    have hlt : t₁ / 60 < w := lt_of_le_of_ne hw.le (Ne.symm hne)
    have hmove : moveUnit 60 w t₁ rs = 60 * w + secondAfter (secondIn e t) t₁ := by omega
    have hcall : searchStep e dot (.call t calls) = some (.call (moveUnit 60 w t₁ rs)
        (.minute (secondIn e t) :: calls)) := by
      rw [searchStep, callStep_minute hw₁ hw hne, hmove]
    refine (hrec _ _ (by omega) (hreach.tail hcall)).mono ?_
    rintro c ⟨t₂, rfl, hle, hend⟩
    exact ⟨t₂, rfl, by omega, hrs.push fun g hg => Or.inl hg, hresets, .ended hend⟩

/-- The hour stage. -/
lemma ends_hour {t₂ : ℤ} (hle : t ≤ t₂) (hrs : Below rs [.minute, .second])
    (h : BeforeHour e dot c₀ (secondIn e t) calls t₁ rs t₂)
    (hw : NextUnit e.hours 24 (t₂ / 3600) w) :
    (settleWithin recur rs .hourOfDay (t₂ / 3600 % 24).toNat (w % 24).toNat
      (gmtime (if w = t₂ / 3600 then t₂ else moveUnit 3600 w t₂ rs))).Ends
        (Reaches (searchStep e dot) c₀ .out) fun p =>
          ∃ t₃, p.2 = gmtime t₃ ∧ t ≤ t₃ ∧ Below p.1 [.hourOfDay, .minute, .second] ∧
            Resets (secondIn e t) p.1 ∧ BeforeDay e dot c₀ (secondIn e t) calls p.1 t₃ := by
  have hpush : Below (dcmCronParsePushToFieldsArr rs .hourOfDay) [.hourOfDay, .minute, .second] :=
    hrs.push fun g hg => mem_push.mp hg
  obtain ⟨hhour, hmin, hsec⟩ := moveUnit_hour hrs w t₂
  rw [hresets.secondAfter] at hsec
  have hbounds := secondAfter_bounds (secondIn e t) t₂
  -- the call from the hour that has been found
  have hmoved : w ≠ t₂ / 3600 → moveUnit 3600 w t₂ rs / 60 % 60 = 0 →
      Reaches (searchStep e dot) c₀ (.call (3600 * w + secondAfter (secondIn e t) t₂)
        (.hour (secondIn e t) :: calls)) →
      (recur (gmtime (moveUnit 3600 w t₂ rs))).Ends (Reaches (searchStep e dot) c₀ .out)
        fun c => ∃ t₃, c = gmtime t₃ ∧ t ≤ t₃ ∧ Below rs [.hourOfDay, .minute, .second] ∧
          Resets (secondIn e t) rs ∧ BeforeDay e dot c₀ (secondIn e t) calls rs t₃ := by
    intro hne hzero hcall
    have hlt : t₂ / 3600 < w := lt_of_le_of_ne hw.le (Ne.symm hne)
    rw [show moveUnit 3600 w t₂ rs = 3600 * w + secondAfter (secondIn e t) t₂ by omega]
    refine (hrec _ _ (by omega) hcall).mono ?_
    rintro c ⟨t₃, rfl, hle₃, hend⟩
    exact ⟨t₃, rfl, by omega, hrs.push fun g hg => Or.inl hg, hresets, hend.beforeDay rs⟩
  cases h with
  | place hminute hmem heq =>
    subst heq
    refine ends_settleWithin (n := 24) hw (fun heq => ?_) fun hne => ?_
    · have hin : InSet e.hours (t₂ / 3600 % 24) := heq ▸ hw.mem
      have hstep : searchStep e dot (.call t calls) = some (.day (secondIn e t) t₂ calls) := by
        rw [searchStep, callStep_day hw₁ hminute hin]
      exact ⟨t₂, rfl, hle, hpush, hresets.push (by decide),
        .ready ⟨Or.inl (mem_push.mpr (Or.inl hmem)), Or.inl (mem_push.mpr (Or.inr rfl)),
          Or.inl ⟨hw₁.mem, hminute, hin⟩⟩ (hreach.tail hstep)⟩
    · refine hmoved hne (by rw [hmin, if_pos hmem]) (reaches_step hreach ?_)
      rw [searchStep, callStep_hour hw₁ hminute hw hne]
  | ended hend =>
    cases hend with
    | found hmatch hfound =>
      refine ends_settleWithin (n := 24) hw (fun heq => ?_) fun hne => ?_
      · exact ⟨t₂, rfl, hle, hpush, hresets.push (by decide), .found hmatch hfound⟩
      · exact absurd (hw.eq_of_mem hmatch.hour) hne
    | stop _ hmid _ hstop =>
      refine ends_settleWithin (n := 24) hw (fun heq => ?_) fun hne => ?_
      · refine ⟨t₂, rfl, hle, hpush, hresets.push (by decide),
          .ready (dayReady_of_midnight _ hmid) (reaches_step hstop ?_)⟩
        have hin : InSet e.hours (t₂ / 3600 % 24) := heq ▸ hw.mem
        rw [searchStep, resume, if_pos hin]
      · refine hmoved hne ?_ (reaches_step hstop ?_)
        · rw [hmin]
          split_ifs <;> omega
        · have hno : ¬InSet e.hours (t₂ / 3600 % 24) := fun hin => hne (hw.eq_of_mem hin)
          rw [searchStep, resume, if_neg hno, nextUnit_of_nextUnit (n := 24) hw]

end Call

/-! ### The day and the month -/

/-- What holds before the month search: a call has ended, or the day search has come to another
month on a day with the same number. -/
inductive BeforeMonth (e : DcmCronExpr) (dot : ℤ) (c₀ : Config) (calls : List Pending)
    (rs : List Field) (t : ℤ) : Prop where
  | ended : Outcome e dot c₀ calls t → BeforeMonth e dot c₀ calls rs t
  | leave (fresh : Bool) (t₃ : ℤ) (rs₃ : List Field) : LeavesMonth e (t₃ / 86400) →
      Reaches (searchStep e dot) c₀ (.day fresh t₃ calls) → Resets fresh rs₃ →
      DayReady e rs₃ t₃ → DayMoved e rs₃ t₃ t → t / 86400 = nextDay e (t₃ / 86400) →
      rs = dcmCronParsePushToFieldsArr rs₃ .dayOfMonth → BeforeMonth e dot c₀ calls rs t

/-- The time that the day search ends at. -/
lemma DayMoved.eq_dayEnd {s : ℤ} (hs : DayMoved e rs t s) (hrs : Field.dayOfMonth ∉ rs)
    (hresets : Resets fresh rs) (hready : DayReady e rs t) : s = dayEnd e fresh t := by
  by_cases hin : DayIn e (t / 86400)
  · rw [hs.stay hin, dayEnd_of_in hin]
  · have hne : nextDay e (t / 86400) ≠ t / 86400 := fun h => hin (nextDay_eq_self_iff.mp h)
    have hday := hs.day hrs
    rw [dayEnd_of_moved hne]
    rw [DayMoved, if_neg hne] at hs
    have hsec := hs.tod.sec
    rw [hresets.secondAfter] at hsec
    have hmid := hs.tod.midnight hready.minute hready.hour
    omega

/-- The day stage. -/
lemma ends_day {recur : Tm → Bounded Tm} {s : ℤ} (hready : BeforeDay e dot c₀ fresh calls rs t)
    (hs : DayMoved e rs t s) (hbelow : Below rs [.hourOfDay, .minute, .second])
    (hresets : Resets fresh rs) (hrec : Calls e dot c₀ t recur) :
    (settleWithin recur rs .dayOfMonth (mdayOf (t / 86400)).toNat
      (mdayOf (nextDay e (t / 86400))).toNat (gmtime s)).Ends
        (Reaches (searchStep e dot) c₀ .out) fun p =>
          ∃ t₄, p.2 = gmtime t₄ ∧ t ≤ t₄ ∧
            Below p.1 [.dayOfMonth, .hourOfDay, .minute, .second] ∧
            BeforeMonth e dot c₀ calls p.1 t₄ := by
  have hrs : Field.dayOfMonth ∉ rs := fun hd => by simpa using hbelow _ hd
  have hle := hs.le hrs
  have hpush : Below (dcmCronParsePushToFieldsArr rs .dayOfMonth)
      [.dayOfMonth, .hourOfDay, .minute, .second] := hbelow.push fun g hg => mem_push.mp hg
  cases hready with
  | found hmatch hfound =>
    have hday := (matches_iff.mp hmatch).2.1
    obtain rfl := hs.stay hday
    refine ends_settleWithin_day (fun _ => ?_) fun hne => ?_
    · exact ⟨s, rfl, hle, hpush, .ended (.found hmatch hfound)⟩
    · exact absurd (congrArg mdayOf (nextDay_eq_self_iff.mpr hday)) hne
  | ready hready hday =>
    have hend := hs.eq_dayEnd hrs hresets hready
    rcases dayStep_cases e dot fresh t calls with ⟨hne, heq⟩ |
      ⟨hsame, hmonth, ⟨hmatch, heq⟩ | ⟨hno, heq⟩⟩ | ⟨hleaves, -⟩
    · refine ends_settleWithin_day (fun hsame => absurd hsame hne) fun _ => ?_
      have hlt : t < s := lt_of_le_of_ne hle fun h => by
        have hnext := hs.day hrs
        rw [← h] at hnext
        exact hne (congrArg mdayOf hnext.symm)
      rw [hend] at hlt ⊢
      refine (hrec _ _ hlt (hday.tail (congrArg some heq))).mono ?_
      rintro c ⟨t₄, rfl, hle₄, hend⟩
      exact ⟨t₄, rfl, by omega, hbelow.push fun g hg => Or.inl hg, .ended hend⟩
    · refine ends_settleWithin_day (fun _ => ?_) fun hne => absurd hsame hne
      rw [hend] at hle ⊢
      exact ⟨_, rfl, hle, hpush, .ended (.found hmatch (hday.tail (congrArg some heq)))⟩
    · refine ends_settleWithin_day (fun _ => ?_) fun hne => absurd hsame hne
      have hmid := (dayEnd_cases fresh hready.tod hmonth).resolve_left hno
      rw [← dayEnd_day e fresh] at hmonth
      rw [hend] at hle ⊢
      exact ⟨_, rfl, hle, hpush,
        .ended (.stop hno hmid hmonth (hday.tail (congrArg some heq)))⟩
    · refine ends_settleWithin_day (fun _ => ?_) fun hne => absurd hleaves.1 hne
      exact ⟨s, rfl, hle, hpush, .leave fresh t rs hleaves hday hresets hready hs (hs.day hrs) rfl⟩

/-- The month stage. -/
lemma ends_month {recur : Tm → Bounded Tm} (hwf : e.WellFormed) (hrec : Calls e dot c₀ t recur)
    (hrs : Below rs [.dayOfMonth, .hourOfDay, .minute, .second])
    (h : BeforeMonth e dot c₀ calls rs t) {next : ℕ} {c : Tm}
    (hnext : (MonthIn e (monthOf (t / 86400)) ∧
        (next, c) = ((monthOf (t / 86400) % 12).toNat, gmtime t)) ∨
      (¬MonthIn e (monthOf (t / 86400)) ∧ (monthOf (t / 86400) % 12).toNat ≠ next ∧
        c = gmtime (moveMonth e t rs))) :
    Bounded.Ends (if (monthOf (t / 86400) % 12).toNat = next then pure c
      else if (c.year - dot) % 2 ^ 32 > cronMaxYearsDiff then .ofOption none else recur c)
      (Reaches (searchStep e dot) c₀ .out) (Result e dot c₀ calls t) := by
  cases h with
  | ended hend =>
    rcases hnext with ⟨-, heq⟩ | ⟨hno, -⟩
    · obtain ⟨rfl, rfl⟩ := Prod.mk.inj heq
      rw [if_pos rfl]
      exact .pure ⟨t, rfl, le_rfl, hend⟩
    · exact absurd hend.month hno
  | leave fresh t₃ rs₃ hleaves hday hresets hready hmoved hz hpush =>
    obtain ⟨hno, hne, rfl⟩ := hnext.resolve_left fun h => hleaves.2 (hz ▸ h.1)
    obtain ⟨htod, hland⟩ := moveMonth_spec e (hrs.isLow (by simp [Below])) t
    have hmem : Field.dayOfMonth ∈ rs := hpush ▸ mem_push.mpr (Or.inr rfl)
    rw [if_pos hmem, hz] at hland
    rw [hpush] at htod
    have htod₃ := htod.of_day hmoved
    rw [← hpush] at htod₃
    have hsec := htod₃.sec
    have hmid := htod₃.midnight hready.minute hready.hour
    rw [hresets.secondAfter] at hsec
    have hlt := lt_landing hwf.months hleaves.2
    have hyear : ((gmtime (moveMonth e t rs)).year - dot) % 2 ^ 32 ≤ cronMaxYearsDiff ↔
        InHorizon e dot (t₃ / 86400) := by
      simp only [gmtime, hland, InHorizon, Horizon, landing, monthOf_monthStart]
    rw [if_neg hne]
    rcases dayStep_cases e dot fresh t₃ calls with ⟨hother, -⟩ | ⟨-, hmonth, -⟩ |
      ⟨-, ⟨hhor, heq⟩ | ⟨hout, heq⟩⟩
    · exact absurd hleaves.1 hother
    · exact absurd hmonth hleaves.2
    · rw [if_neg (not_lt.mpr (hyear.mpr hhor)), show moveMonth e t rs =
        86400 * landing e (nextDay e (t₃ / 86400)) + secondAfter fresh t₃ by omega]
      have hbounds := secondAfter_bounds fresh t₃
      refine (hrec _ _ (by omega) (hday.tail (congrArg some heq))).mono ?_
      rintro c ⟨r, rfl, hle, hend⟩
      exact ⟨r, rfl, by omega, hend⟩
    · rw [if_pos (not_le.mp fun h => hout (hyear.mp h))]
      exact .ofOption (fun _ => hday.tail (congrArg some heq)) fun _ h => by cases h

/-! ### The search -/

/-- The depth of the calls is bounded by the seconds until the last call of the machine. -/
theorem ends_doNextWithin (hwf : e.WellFormed) {limit : ℤ}
    (hlimit : ∀ a calls, Reaches (searchStep e dot) c₀ (.call a calls) → a < limit) {fuel : ℕ}
    (ht : 0 ≤ t) (hfuel : limit ≤ t + fuel)
    (hreach : Reaches (searchStep e dot) c₀ (.call t calls)) :
    (doNextWithin e dot fuel (gmtime t)).Ends (Reaches (searchStep e dot) c₀ .out)
      (Result e dot c₀ calls t) := by
  induction fuel generalizing t calls with
  | zero =>
    have := hlimit t calls hreach
    omega
  | succ fuel ih =>
    have hrec : Calls e dot c₀ t (doNextWithin e dot fuel) :=
      fun a calls hlt ha => ih (by omega) (by push_cast at hfuel; omega) ha
    rw [doNextWithin]
    refine (ends_second hwf ht).bind ?_
    rintro ⟨_, _⟩ ⟨t₁, hw₁, heq⟩
    obtain ⟨rfl, rfl⟩ := Prod.mk.inj heq
    dsimp only
    -- the minute
    have ht₁ : 0 ≤ t₁ := ht.trans hw₁.le
    have hresets₁ := resets_second hw₁
    have hbelow₁ : Below (if (gmtime t).sec.toNat = (t₁ % 60).toNat then [Field.second] else [])
        [.second] := by
      split_ifs <;> simp [Below]
    generalize (if (gmtime t).sec.toNat = (t₁ % 60).toNat then [Field.second] else []) = rs₁
      at hbelow₁ hresets₁
    refine (ends_findNext_unit unitField_minute hwf.minutes (hbelow₁.isLow (by simp [Below]))
      ht₁).bind ?_
    rintro ⟨_, _⟩ ⟨w₂, hw₂, heq⟩
    obtain ⟨rfl, rfl⟩ := Prod.mk.inj heq
    refine (ends_minute hreach hw₁ hrec hresets₁ hbelow₁ hw₂).bind ?_
    rintro ⟨rs₂, _⟩ ⟨t₂, rfl, hle₂, hbelow₂, hresets₂, hbefore⟩
    dsimp only at hbelow₂ hresets₂ hbefore ⊢
    -- the hour
    refine (ends_findNext_unit unitField_hour hwf.hours (hbelow₂.isLow (by simp [Below]))
      (ht.trans hle₂)).bind ?_
    rintro ⟨_, _⟩ ⟨w₃, hw₃, heq⟩
    obtain ⟨rfl, rfl⟩ := Prod.mk.inj heq
    refine (ends_hour hreach hw₁ hrec hresets₂ hle₂ hbelow₂ hbefore hw₃).bind ?_
    rintro ⟨rs₃, _⟩ ⟨t₃, rfl, hle₃, hbelow₃, hresets₃, hready⟩
    dsimp only at hbelow₃ hresets₃ hready ⊢
    -- the day
    have hday₃ : Field.dayOfMonth ∉ rs₃ := fun hd => by simpa using hbelow₃ _ hd
    refine (ends_findNextDay (hbelow₃.isLow (by simp [Below])) hday₃ (ht.trans hle₃)).bind ?_
    rintro ⟨_, _⟩ ⟨s, hs, heq⟩
    obtain ⟨rfl, rfl⟩ := Prod.mk.inj heq
    refine (ends_day hready hs hbelow₃ hresets₃ (hrec.mono hle₃)).bind ?_
    rintro ⟨rs₄, _⟩ ⟨t₄, rfl, hle₄, hbelow₄, hmonth⟩
    dsimp only at hbelow₄ hmonth ⊢
    -- the month
    have hle := hle₃.trans hle₄
    refine (ends_findNext_month hwf.months (hbelow₄.isLow (by simp [Below])) (ht.trans hle)).bind ?_
    rintro ⟨next, c⟩ hnext
    refine (ends_month hwf (hrec.mono hle) hbelow₄ hmonth hnext).mono ?_
    rintro c ⟨r, rfl, hle', hend⟩
    exact ⟨r, rfl, hle.trans hle', hend⟩

end DcmAgent.Cron
