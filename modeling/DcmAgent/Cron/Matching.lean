import Mathlib.Tactic
import DcmAgent.Cron.Search

/-!
# Times of a pattern

A time matches when every field of its broken-down time is in its set. The fields above the second
are those of its minute, counted from the epoch.
-/

namespace DcmAgent.Cron

open Library

variable {e : DcmCronExpr} {t r a : ℤ}

/-- The fields of the time of day are in their sets. -/
structure TodIn (e : DcmCronExpr) (t : ℤ) : Prop where
  sec : InSet e.seconds (gmtime t).sec
  min : InSet e.minutes (gmtime t).min
  hour : InSet e.hours (gmtime t).hour

/-- Every field of the broken-down time is in its set. -/
structure Matches (e : DcmCronExpr) (t : ℤ) : Prop extends TodIn e t where
  mday : InSet e.daysOfMonth (gmtime t).mday
  mon : InSet e.months (gmtime t).mon
  wday : InSet e.daysOfWeek (gmtime t).wday

lemma matches_iff : Matches e t ↔
    TodIn e t ∧ DayIn e (t / 86400) ∧ MonthIn e (monthOf (t / 86400)) := by
  constructor
  · intro h
    exact ⟨h.toTodIn, ⟨h.mday, h.wday⟩, h.mon⟩
  · rintro ⟨htod, hday, hmonth⟩
    exact ⟨htod, hday.1, hmonth, hday.2⟩

/-! ### Minutes -/

/-- The minute and the hour are in their sets; minutes are counted from the epoch. -/
def TodMinute (e : DcmCronExpr) (μ : ℤ) : Prop :=
  InSet e.minutes (μ % 60) ∧ InSet e.hours (μ / 60 % 24)

/-- Every field above the seconds is in its set. -/
def MinuteMatches (e : DcmCronExpr) (μ : ℤ) : Prop :=
  TodMinute e μ ∧ DayIn e (μ / 1440) ∧ MonthIn e (monthOf (μ / 1440))

instance (e : DcmCronExpr) (μ : ℤ) : Decidable (TodMinute e μ) := by
  unfold TodMinute; infer_instance

instance (e : DcmCronExpr) (μ : ℤ) : Decidable (MinuteMatches e μ) := by
  unfold MinuteMatches; infer_instance

lemma matches_iff_minute :
    Matches e t ↔ InSet e.seconds (t % 60) ∧ MinuteMatches e (t / 60) := by
  have h₁ : t / 60 / 60 = t / 3600 := by omega
  have h₂ : t / 60 / 1440 = t / 86400 := by omega
  rw [matches_iff, MinuteMatches, TodMinute, h₁, h₂]
  constructor
  · rintro ⟨⟨hs, hm, hh⟩, hd, hmo⟩
    exact ⟨hs, ⟨hm, hh⟩, hd, hmo⟩
  · rintro ⟨hs, ⟨hm, hh⟩, hd, hmo⟩
    exact ⟨⟨hs, hm, hh⟩, hd, hmo⟩

instance (e : DcmCronExpr) (t : ℤ) : Decidable (Matches e t) :=
  decidable_of_iff _ matches_iff_minute.symm

/-- No second of the pattern is smaller. -/
def LowSec (e : DcmCronExpr) (t : ℤ) : Prop := ∀ s, 0 ≤ s → s < t % 60 → ¬InSet e.seconds s

/-- No time from `t` to `r` matches. -/
def NoMatch (e : DcmCronExpr) (t r : ℤ) : Prop := ∀ u, t ≤ u → u < r → ¬Matches e u

lemma NoMatch.trans (h₁ : NoMatch e t a) (h₂ : NoMatch e a r) : NoMatch e t r := fun u ht hr =>
  if h : u < a then h₁ u ht h else h₂ u (by omega) hr

lemma NoMatch.refl (e : DcmCronExpr) (t : ℤ) : NoMatch e t t := fun u ht hr => by omega

/-- Moving over minutes that do not match, to the smallest second of a minute or to a minute that
does not match either. -/
lemma noMatch_of_minutes (hlow : LowSec e a ∨ ¬MinuteMatches e (a / 60))
    (h : ∀ μ, t / 60 ≤ μ → μ < a / 60 → ¬MinuteMatches e μ) : NoMatch e t a := by
  intro u hu hua hmatch
  obtain ⟨hs, hmin⟩ := matches_iff_minute.mp hmatch
  by_cases hμ : u / 60 < a / 60
  · exact h _ (by omega) hμ hmin
  · have heq : u / 60 = a / 60 := by omega
    rcases hlow with hlow | hno
    · exact hlow _ (by omega) (by omega) hs
    · exact hno (heq ▸ hmin)

/-! ### Seconds -/

/-- The second is in its set, or no smaller one is. -/
def Strong (e : DcmCronExpr) (t : ℤ) : Prop := InSet e.seconds (t % 60) ∨ LowSec e t

lemma lowSec_of_zero (h : a % 60 = 0) : LowSec e a := fun s h0 hs => by omega

lemma NextUnit.eq_of_mem {bits : Bits} {n q w : ℤ} (h : NextUnit bits n q w)
    (hq : InSet bits (q % n)) : w = q := by
  by_contra hne
  exact h.skip q le_rfl (lt_of_le_of_ne h.le (Ne.symm hne)) hq

section Second

variable {t₁ : ℤ} (hw : NextUnit e.seconds 60 t t₁)

include hw

/-- The seconds that are passed over do not match. -/
lemma noMatch_second : NoMatch e t t₁ := fun u hu hut hmatch => hw.skip u hu hut hmatch.sec

/-- In a minute that has been entered from its start the second found is the smallest one. -/
lemma lowSec_of_carry (h : t / 60 < t₁ / 60) : LowSec e t₁ := fun s h0 hs hin => by
  refine hw.skip (t₁ - t₁ % 60 + s) (by omega) (by omega) ?_
  rwa [show (t₁ - t₁ % 60 + s) % 60 = s by omega]

lemma LowSec.next (h : LowSec e t) : LowSec e t₁ := fun s h0 hs hin => by
  by_cases hcarry : t / 60 < t₁ / 60
  · exact lowSec_of_carry hw hcarry s h0 hs hin
  · have hle := hw.le
    by_cases hst : s < t % 60
    · exact h s h0 hst hin
    · refine hw.skip (t₁ - t₁ % 60 + s) (by omega) (by omega) ?_
      rwa [show (t₁ - t₁ % 60 + s) % 60 = s by omega]

lemma Strong.minute_eq (hsec : HasBit e.seconds 0 60) (h : Strong e t) : t₁ / 60 = t / 60 := by
  rcases h with hin | hlow
  · rw [hw.eq_of_mem hin]
  · obtain ⟨i, -, hi, hbit⟩ := hsec
    have hmem : InSet e.seconds ((t - t % 60 + i) % 60) := by
      rw [InSet, show ((t - t % 60 + i) % 60).toNat = i by omega]
      exact hbit
    have hge : t % 60 ≤ i := by
      by_contra hlt
      refine hlow i (by omega) (by omega) ?_
      rwa [show (t - t % 60 + (i : ℤ)) % 60 = i by omega] at hmem
    have hle : t₁ ≤ t - t % 60 + i := by
      by_contra hlt
      exact hw.skip _ (by omega) (by omega) hmem
    have := hw.le
    omega

end Second

end DcmAgent.Cron
