import Mathlib.Tactic
import DcmAgent.Cron.Days

/-!
# The moves of the search

A call of the search moves a field to its next value and resets the lower fields that it has found
in place before. This file says which time a move leads to.
-/

namespace DcmAgent.Cron

open Library

variable {e : DcmCronExpr} {dot t : ℤ} {rs rs' : List Field}

/-- The year that the search of a time counts from. -/
def startYear (t : ℤ) : ℤ := (gmtime t).year

/-- The time after a field of `u` seconds has been moved to the unit `w`. -/
def moveUnit (u w t : ℤ) (rs : List Field) : ℤ := resetTimes (t + u * (w - t / u)) rs

/-- The time after the day search. -/
def DayMoved (e : DcmCronExpr) (rs : List Field) (t s : ℤ) : Prop :=
  if nextDay e (t / 86400) = t / 86400 then s = t
  else ResetSpec rs (t + 86400 * (nextDay e (t / 86400) - t / 86400)) s

/-- A month is within the years that the search may reach. -/
def Horizon (dot k : ℤ) : Prop := (k / 12 - 1900 - dot) % 2 ^ 32 ≤ cronMaxYearsDiff

/-- The time after the month search. -/
def moveMonth (e : DcmCronExpr) (t : ℤ) (rs : List Field) : ℤ :=
  resetTimes (t + 86400 * (monthMove e (t / 86400) - t / 86400)) rs

lemma mem_push {f g : Field} :
    g ∈ dcmCronParsePushToFieldsArr rs f ↔ g ∈ rs ∨ g = f := by
  unfold dcmCronParsePushToFieldsArr
  split_ifs with h
  · constructor
    · exact Or.inl
    · rintro (hg | rfl) <;> assumption
  · simp

lemma mem_push_of_ne {f g : Field} (hne : g ≠ f) :
    g ∈ dcmCronParsePushToFieldsArr rs f ↔ g ∈ rs := by
  rw [mem_push]
  exact or_iff_left hne

lemma toNat_mdayOf_eq_iff {z z' : ℤ} : (mdayOf z).toNat = (mdayOf z').toNat ↔
    mdayOf z' = mdayOf z := by
  have h₁ := mdayOf_bounds z
  have h₂ := mdayOf_bounds z'
  omega

/-! ### Where the fields are moved to -/

/-- The resets that can be pending at each stage. -/
def Below (rs : List Field) (fs : List Field) : Prop := ∀ f ∈ rs, f ∈ fs

lemma Below.isLow {fs : List Field} (h : Below rs fs)
    (hfs : Below fs [.second, .minute, .hourOfDay, .dayOfMonth]) : ∀ f ∈ rs, f.IsLow := by
  intro f hf
  have := hfs f (h f hf)
  simp only [List.mem_cons, List.not_mem_nil, or_false] at this
  rcases this with rfl | rfl | rfl | rfl <;> trivial

lemma Below.push {f : Field} {fs : List Field} (h : Below rs fs)
    (h' : ∀ g ∈ rs', g ∈ rs ∨ g = f) : Below rs' (f :: fs) := by
  intro g hg
  rcases h' g hg with hg' | rfl
  · exact List.mem_cons_of_mem _ (h g hg')
  · exact List.mem_cons_self

lemma moveUnit_minute (hrs : Below rs [.second]) (w t : ℤ) :
    moveUnit 60 w t rs / 60 = w ∧
      moveUnit 60 w t rs % 60 = if Field.second ∈ rs then 0 else t % 60 := by
  obtain ⟨hsec, hmin, hhour, hday⟩ := resetSpec_resetTimes (hrs.isLow (by simp [Below]))
    (t + 60 * (w - t / 60))
  have hm : Field.minute ∉ rs := fun h => by simpa using hrs _ h
  have hh : Field.hourOfDay ∉ rs := fun h => by simpa using hrs _ h
  have hd : Field.dayOfMonth ∉ rs := fun h => by simpa using hrs _ h
  rw [if_neg hm] at hmin
  rw [if_neg hh] at hhour
  rw [if_neg hd] at hday
  rw [show (t + 60 * (w - t / 60)) % 60 = t % 60 by omega] at hsec
  refine ⟨?_, hsec⟩
  unfold moveUnit
  omega

lemma moveUnit_hour (hrs : Below rs [.minute, .second]) (w t : ℤ) :
    moveUnit 3600 w t rs / 3600 = w ∧
      moveUnit 3600 w t rs / 60 % 60 = (if Field.minute ∈ rs then 0 else t / 60 % 60) ∧
      moveUnit 3600 w t rs % 60 = if Field.second ∈ rs then 0 else t % 60 := by
  obtain ⟨hsec, hmin, hhour, hday⟩ := resetSpec_resetTimes (hrs.isLow (by simp [Below]))
    (t + 3600 * (w - t / 3600))
  have hh : Field.hourOfDay ∉ rs := fun h => by simpa using hrs _ h
  have hd : Field.dayOfMonth ∉ rs := fun h => by simpa using hrs _ h
  rw [if_neg hh] at hhour
  rw [if_neg hd] at hday
  rw [show (t + 3600 * (w - t / 3600)) % 60 = t % 60 by omega] at hsec
  rw [show (t + 3600 * (w - t / 3600)) / 60 % 60 = t / 60 % 60 by omega] at hmin
  refine ⟨?_, hmin, hsec⟩
  unfold moveUnit
  omega

/-- The time of day after a move of the day or the month. -/
structure TodSpec (rs : List Field) (t s : ℤ) : Prop where
  sec : s % 60 = if Field.second ∈ rs then 0 else t % 60
  min : s / 60 % 60 = if Field.minute ∈ rs then 0 else t / 60 % 60
  hour : s / 3600 % 24 = if Field.hourOfDay ∈ rs then 0 else t / 3600 % 24

lemma ResetSpec.tod {k s : ℤ} (h : ResetSpec rs (t + 86400 * k) s) : TodSpec rs t s := by
  obtain ⟨hsec, hmin, hhour, -⟩ := h
  rw [show (t + 86400 * k) % 60 = t % 60 by omega] at hsec
  rw [show (t + 86400 * k) / 60 % 60 = t / 60 % 60 by omega] at hmin
  rw [show (t + 86400 * k) / 3600 % 24 = t / 3600 % 24 by omega] at hhour
  exact ⟨hsec, hmin, hhour⟩

/-- The time of day is midnight when every field of it is one of the resets or at its minimum. -/
lemma TodSpec.midnight {s : ℤ} (h : TodSpec rs t s)
    (hmin : Field.minute ∈ rs ∨ t / 60 % 60 = 0)
    (hhour : Field.hourOfDay ∈ rs ∨ t / 3600 % 24 = 0) : s / 60 = 1440 * (s / 86400) := by
  have h₁ : s / 60 % 60 = 0 := by
    rw [h.min]
    split_ifs with hmem
    · rfl
    · exact hmin.resolve_left hmem
  have h₂ : s / 3600 % 24 = 0 := by
    rw [h.hour]
    split_ifs with hmem
    · rfl
    · exact hhour.resolve_left hmem
  omega

/-- The day search ends on `nextDay`. -/
lemma DayMoved.day {s : ℤ} (hd : Field.dayOfMonth ∉ rs) (h : DayMoved e rs t s) :
    s / 86400 = nextDay e (t / 86400) := by
  unfold DayMoved at h
  split_ifs at h with heq
  · rw [h, heq]
  · have := h.day
    rw [if_neg hd] at this
    omega

lemma DayMoved.le {s : ℤ} (hd : Field.dayOfMonth ∉ rs) (hs : DayMoved e rs t s) : t ≤ s := by
  have hday := hs.day hd
  have hle := le_nextDay e (t / 86400)
  unfold DayMoved at hs
  split_ifs at hs <;> omega

lemma DayMoved.stay {s : ℤ} (hs : DayMoved e rs t s) (hin : DayIn e (t / 86400)) : s = t := by
  unfold DayMoved at hs
  rwa [if_pos (nextDay_eq_self_iff.mpr hin)] at hs

lemma moveMonth_spec (e : DcmCronExpr) (hrs : ∀ f ∈ rs, f.IsLow) (t : ℤ) :
    TodSpec rs t (moveMonth e t rs) ∧ moveMonth e t rs / 86400 =
      if Field.dayOfMonth ∈ rs then landing e (t / 86400) else monthMove e (t / 86400) := by
  have h := resetSpec_resetTimes hrs (t + 86400 * (monthMove e (t / 86400) - t / 86400))
  refine ⟨h.tod, ?_⟩
  have hday := h.day
  rwa [show (t + 86400 * (monthMove e (t / 86400) - t / 86400)) / 86400 =
    monthMove e (t / 86400) by omega] at hday

/-- The time of day after a move of the month, which follows one of the day. -/
lemma TodSpec.of_day {s a : ℤ} (hs : DayMoved e rs t s)
    (h : TodSpec (dcmCronParsePushToFieldsArr rs .dayOfMonth) s a) : TodSpec rs t a := by
  obtain ⟨hsec, hmin, hhour⟩ := h
  rw [if_congr (mem_push_of_ne (by decide)) rfl rfl] at hsec hmin hhour
  unfold DayMoved at hs
  split_ifs at hs
  · subst hs
    exact ⟨hsec, hmin, hhour⟩
  · obtain ⟨hsec', hmin', hhour'⟩ := hs.tod
    refine ⟨?_, ?_, ?_⟩
    · rw [hsec, hsec']
      split_ifs <;> rfl
    · rw [hmin, hmin']
      split_ifs <;> rfl
    · rw [hhour, hhour']
      split_ifs <;> rfl

end DcmAgent.Cron
