import Mathlib.Tactic
import DcmAgent.Cron.Matching
import DcmAgent.Library.Runs

/-!
# The search as a machine

The calls of `dcmCronParseDoNext` inside one another are a stack here. A call that has moved its
minute or its hour waits for the inner call and goes on from the time that this one ends at. After a
matching time there is nothing left to do. After a midnight that does not match (a stop) it goes on
with the hour or with the day. A call that has moved its day or its month does not wait: nothing
comes after it.
-/

namespace DcmAgent.Cron

open Library

variable {e : DcmCronExpr} {dot t t₁ u w z : ℤ} {fresh : Bool} {calls : List Pending}

/-! ### Units and days -/

/-- The first unit from `q` on whose number is in the set, among the next ones. -/
def findUnit (bits : Bits) (n : ℤ) : ℕ → ℤ → ℤ
  | 0, q => q
  | count + 1, q => if InSet bits (q % n) then q else findUnit bits n count (q + 1)

def nextUnit (bits : Bits) (n : ℕ) (q : ℤ) : ℤ := findUnit bits n n q

lemma findUnit_of_nextUnit {bits : Bits} {n q : ℤ} {count : ℕ} (h : NextUnit bits n q w)
    (hcount : w < q + count) : findUnit bits n count q = w := by
  induction count generalizing q with
  | zero =>
    have := h.le
    omega
  | succ count ih =>
    rw [findUnit]
    split_ifs with hin
    · exact (h.eq_of_mem hin).symm
    · have hne : q ≠ w := fun heq => hin (by rw [heq]; exact h.mem)
      have hle := h.le
      have hlt := h.lt
      exact ih ⟨by omega, by omega, h.mem, fun x hx hxw => h.skip x (by omega) hxw⟩ (by omega)

lemma nextUnit_of_nextUnit {bits : Bits} {n : ℕ} {q : ℤ} (h : NextUnit bits n q w) :
    nextUnit bits n q = w := findUnit_of_nextUnit h h.lt

/-- The day search has come to a day with the same number, and the month search goes on from it. -/
def LeavesMonth (e : DcmCronExpr) (z : ℤ) : Prop :=
  mdayOf (nextDay e z) = mdayOf z ∧ ¬MonthIn e (monthOf (nextDay e z))

instance (e : DcmCronExpr) (z : ℤ) : Decidable (LeavesMonth e z) := by
  unfold LeavesMonth; infer_instance

/-- The search may go on to the month that the month search leads to. -/
def InHorizon (e : DcmCronExpr) (dot z : ℤ) : Prop :=
  Horizon dot (monthOf (monthMove e (nextDay e z)))

instance (e : DcmCronExpr) (dot z : ℤ) : Decidable (InHorizon e dot z) := by
  unfold InHorizon Horizon; infer_instance

/-! ### The machine -/

/-- A call that has moved its minute or its hour; `fresh` if its second was in place before, which
makes the second one of the resets. -/
inductive Pending where
  | minute (fresh : Bool)
  | hour (fresh : Bool)
  deriving DecidableEq, Repr

/-- Where the search is: at the start of a call, before its day search, or at a midnight that a call
has ended at. It has found a matching time in the end, or it has run out of years. -/
inductive Config where
  | call (t : ℤ) (calls : List Pending)
  | day (fresh : Bool) (t : ℤ) (calls : List Pending)
  | stop (t : ℤ) (calls : List Pending)
  | found (t : ℤ)
  | out
  deriving DecidableEq, Repr

/-- The day that a day search starts from. -/
def Config.dayOf : Config → Option ℤ
  | .day _ t _ => some (t / 86400)
  | _ => none

/-- The second is in place at the start of a call. -/
def secondIn (e : DcmCronExpr) (t : ℤ) : Bool := decide (InSet e.seconds (t % 60))

/-- The second after a move of a higher field. -/
def secondAfter (fresh : Bool) (t : ℤ) : ℤ := if fresh then 0 else t % 60

/-- The call finds its second, and then it moves its minute or its hour, or it goes on with the day
search. -/
def callStep (e : DcmCronExpr) (t : ℤ) (calls : List Pending) : Config :=
  let fresh := secondIn e t
  let t₁ := nextUnit e.seconds 60 t
  if ¬InSet e.minutes (t₁ / 60 % 60) then
    .call (60 * nextUnit e.minutes 60 (t₁ / 60) + secondAfter fresh t₁) (.minute fresh :: calls)
  else if ¬InSet e.hours (t₁ / 3600 % 24) then
    .call (3600 * nextUnit e.hours 24 (t₁ / 3600) + secondAfter fresh t₁) (.hour fresh :: calls)
  else .day fresh t₁ calls

/-- The time that the day search ends at. -/
def dayEnd (e : DcmCronExpr) (fresh : Bool) (t : ℤ) : ℤ :=
  if nextDay e (t / 86400) = t / 86400 then t
  else 86400 * nextDay e (t / 86400) + secondAfter fresh t

/-- The call starts over when the number of the day has changed, or when the month is left. -/
def dayStep (e : DcmCronExpr) (dot : ℤ) (fresh : Bool) (t : ℤ) (calls : List Pending) : Config :=
  if mdayOf (nextDay e (t / 86400)) ≠ mdayOf (t / 86400) then .call (dayEnd e fresh t) calls
  else if MonthIn e (monthOf (nextDay e (t / 86400))) then
    if Matches e (dayEnd e fresh t) then .found (dayEnd e fresh t)
    else .stop (dayEnd e fresh t) calls
  else if InHorizon e dot (t / 86400) then
    .call (86400 * landing e (nextDay e (t / 86400)) + secondAfter fresh t) calls
  else .out

/-- The innermost call that waits goes on from a stop. -/
def resume (e : DcmCronExpr) (t : ℤ) : Pending → List Pending → Config
  | .minute fresh, calls =>
    if InSet e.hours (t / 3600 % 24) then .day fresh t calls
    else .call (3600 * nextUnit e.hours 24 (t / 3600) + secondAfter fresh t) (.hour fresh :: calls)
  | .hour fresh, calls => .day fresh t calls

def searchStep (e : DcmCronExpr) (dot : ℤ) : Config → Option Config
  | .call t calls => some (callStep e t calls)
  | .day fresh t calls => some (dayStep e dot fresh t calls)
  | .stop t (waiting :: calls) => some (resume e t waiting calls)
  | .stop _ [] => none
  | .found _ => none
  | .out => none

/-! ### Seconds -/

lemma secondAfter_bounds (fresh : Bool) (t : ℤ) :
    0 ≤ secondAfter fresh t ∧ secondAfter fresh t < 60 := by
  unfold secondAfter
  split_ifs <;> omega

lemma LowSec.after (h : fresh = true ∨ LowSec e t) (hsec : u % 60 = secondAfter fresh t) :
    LowSec e u := by
  unfold secondAfter at hsec
  split_ifs at hsec with hfresh
  · exact lowSec_of_zero hsec
  · intro s h0 hs
    rw [hsec] at hs
    exact (h.resolve_left hfresh) s h0 hs

lemma Strong.after (h : Strong e t) (fresh : Bool) (hsec : u % 60 = secondAfter fresh t) :
    Strong e u := by
  rcases h with hin | hlow
  · unfold secondAfter at hsec
    split_ifs at hsec with hfresh
    · exact Or.inr (lowSec_of_zero hsec)
    · exact Or.inl (hsec ▸ hin)
  · exact Or.inr (LowSec.after (Or.inr hlow) hsec)

/-! ### What a call does -/

section Call

variable (hw₁ : NextUnit e.seconds 60 t t₁)

include hw₁

lemma callStep_minute (hw : NextUnit e.minutes 60 (t₁ / 60) w) (hne : w ≠ t₁ / 60) :
    callStep e t calls =
      .call (60 * w + secondAfter (secondIn e t) t₁) (.minute (secondIn e t) :: calls) := by
  have hno : ¬InSet e.minutes (t₁ / 60 % 60) := fun hin => hne (hw.eq_of_mem hin)
  simp only [callStep, nextUnit_of_nextUnit (n := 60) hw₁, nextUnit_of_nextUnit (n := 60) hw]
  rw [if_pos hno]

lemma callStep_hour (hmin : InSet e.minutes (t₁ / 60 % 60))
    (hw : NextUnit e.hours 24 (t₁ / 3600) w) (hne : w ≠ t₁ / 3600) :
    callStep e t calls =
      .call (3600 * w + secondAfter (secondIn e t) t₁) (.hour (secondIn e t) :: calls) := by
  have hno : ¬InSet e.hours (t₁ / 3600 % 24) := fun hin => hne (hw.eq_of_mem hin)
  simp only [callStep, nextUnit_of_nextUnit (n := 60) hw₁, nextUnit_of_nextUnit (n := 24) hw]
  rw [if_neg (not_not.mpr hmin), if_pos hno]

lemma callStep_day (hmin : InSet e.minutes (t₁ / 60 % 60))
    (hhour : InSet e.hours (t₁ / 3600 % 24)) :
    callStep e t calls = .day (secondIn e t) t₁ calls := by
  simp only [callStep, nextUnit_of_nextUnit (n := 60) hw₁]
  rw [if_neg (not_not.mpr hmin), if_neg (not_not.mpr hhour)]

end Call

/-- A call moves its minute or its hour, or its time of day is in place. -/
lemma callStep_cases (hwf : e.WellFormed) (t : ℤ) (calls : List Pending) :
    ∃ t₁, NextUnit e.seconds 60 t t₁ ∧
      ((∃ w, NextUnit e.minutes 60 (t₁ / 60) w ∧ t₁ / 60 < w ∧ callStep e t calls =
          .call (60 * w + secondAfter (secondIn e t) t₁) (.minute (secondIn e t) :: calls)) ∨
        (InSet e.minutes (t₁ / 60 % 60) ∧ ∃ w, NextUnit e.hours 24 (t₁ / 3600) w ∧
          t₁ / 3600 < w ∧ callStep e t calls =
            .call (3600 * w + secondAfter (secondIn e t) t₁) (.hour (secondIn e t) :: calls)) ∨
        TodIn e t₁ ∧ callStep e t calls = .day (secondIn e t) t₁ calls) := by
  obtain ⟨t₁, hw₁⟩ : ∃ t₁, NextUnit e.seconds (60 : ℕ) t t₁ :=
    exists_nextUnit (by norm_num) hwf.seconds t
  refine ⟨t₁, hw₁, ?_⟩
  by_cases hmin : InSet e.minutes (t₁ / 60 % 60)
  · by_cases hhour : InSet e.hours (t₁ / 3600 % 24)
    · exact Or.inr (Or.inr ⟨⟨hw₁.mem, hmin, hhour⟩, callStep_day hw₁ hmin hhour⟩)
    · obtain ⟨w, hw⟩ : ∃ w, NextUnit e.hours (24 : ℕ) (t₁ / 3600) w :=
        exists_nextUnit (by norm_num) hwf.hours _
      have hne : w ≠ t₁ / 3600 := fun heq => hhour (heq ▸ hw.mem)
      exact Or.inr (Or.inl ⟨hmin, w, hw, lt_of_le_of_ne hw.le hne.symm,
        callStep_hour hw₁ hmin hw hne⟩)
  · obtain ⟨w, hw⟩ : ∃ w, NextUnit e.minutes (60 : ℕ) (t₁ / 60) w :=
      exists_nextUnit (by norm_num) hwf.minutes _
    have hne : w ≠ t₁ / 60 := fun heq => hmin (heq ▸ hw.mem)
    exact Or.inl ⟨w, hw, lt_of_le_of_ne hw.le hne.symm, callStep_minute hw₁ hw hne⟩

/-! ### What a day search does -/

lemma dayEnd_of_in (h : DayIn e (t / 86400)) : dayEnd e fresh t = t :=
  if_pos (nextDay_eq_self_iff.mpr h)

lemma dayEnd_of_moved (h : nextDay e (t / 86400) ≠ t / 86400) :
    dayEnd e fresh t = 86400 * nextDay e (t / 86400) + secondAfter fresh t := if_neg h

lemma dayEnd_day (e : DcmCronExpr) (fresh : Bool) (t : ℤ) :
    dayEnd e fresh t / 86400 = nextDay e (t / 86400) := by
  have := secondAfter_bounds fresh t
  unfold dayEnd
  split_ifs <;> omega

lemma le_dayEnd (e : DcmCronExpr) (fresh : Bool) (t : ℤ) : t ≤ dayEnd e fresh t := by
  have hle := le_nextDay e (t / 86400)
  have := secondAfter_bounds fresh t
  unfold dayEnd
  split_ifs <;> omega

/-- The day search moves to another day, or it starts from a matching time or from midnight. -/
lemma dayEnd_cases (fresh : Bool) (hplaced : TodIn e t ∨ t / 60 = 1440 * (t / 86400))
    (hmonth : MonthIn e (monthOf (nextDay e (t / 86400)))) :
    Matches e (dayEnd e fresh t) ∨
      dayEnd e fresh t / 60 = 1440 * (dayEnd e fresh t / 86400) := by
  by_cases hin : DayIn e (t / 86400)
  · rw [nextDay_eq_self_iff.mpr hin] at hmonth
    rw [dayEnd_of_in hin]
    exact hplaced.imp_left fun htod => matches_iff.mpr ⟨htod, hin, hmonth⟩
  · right
    have := secondAfter_bounds fresh t
    rw [dayEnd_of_moved fun h => hin (nextDay_eq_self_iff.mp h)]
    omega

lemma dayStep_cases (e : DcmCronExpr) (dot : ℤ) (fresh : Bool) (t : ℤ) (calls : List Pending) :
    (mdayOf (nextDay e (t / 86400)) ≠ mdayOf (t / 86400) ∧
        dayStep e dot fresh t calls = .call (dayEnd e fresh t) calls) ∨
      (mdayOf (nextDay e (t / 86400)) = mdayOf (t / 86400) ∧
        MonthIn e (monthOf (nextDay e (t / 86400))) ∧
          (Matches e (dayEnd e fresh t) ∧ dayStep e dot fresh t calls = .found (dayEnd e fresh t) ∨
            ¬Matches e (dayEnd e fresh t) ∧
              dayStep e dot fresh t calls = .stop (dayEnd e fresh t) calls)) ∨
      (LeavesMonth e (t / 86400) ∧
        (InHorizon e dot (t / 86400) ∧ dayStep e dot fresh t calls =
            .call (86400 * landing e (nextDay e (t / 86400)) + secondAfter fresh t) calls ∨
          ¬InHorizon e dot (t / 86400) ∧ dayStep e dot fresh t calls = .out)) := by
  unfold dayStep LeavesMonth
  split_ifs <;> simp_all

/-- A call that waits goes on with its day search, or it moves its hour. -/
lemma resume_cases (hwf : e.WellFormed) (t : ℤ) (call : Pending) (calls : List Pending) :
    ∃ fresh, resume e t call calls = .day fresh t calls ∨
      ∃ w, NextUnit e.hours 24 (t / 3600) w ∧ t / 3600 < w ∧
        resume e t call calls = .call (3600 * w + secondAfter fresh t) (.hour fresh :: calls) := by
  cases call with
  | hour fresh => exact ⟨fresh, Or.inl rfl⟩
  | minute fresh =>
    refine ⟨fresh, ?_⟩
    by_cases hhour : InSet e.hours (t / 3600 % 24)
    · exact Or.inl (if_pos hhour)
    · obtain ⟨w, hw⟩ : ∃ w, NextUnit e.hours (24 : ℕ) (t / 3600) w :=
        exists_nextUnit (by norm_num) hwf.hours _
      have hne : w ≠ t / 3600 := fun heq => hhour (heq ▸ hw.mem)
      refine Or.inr ⟨w, hw, lt_of_le_of_ne hw.le hne.symm, ?_⟩
      rw [resume, if_neg hhour, nextUnit_of_nextUnit (n := 24) hw]

/-- Only a day search leads to a place that is neither a call nor a day search. -/
lemma exists_day_of_step (hwf : e.WellFormed) {c c' : Config}
    (hstep : searchStep e dot c = some c') (hcall : ∀ u calls, c' ≠ .call u calls)
    (hday : ∀ fresh u calls, c' ≠ .day fresh u calls) :
    ∃ fresh t calls, c = .day fresh t calls ∧ dayStep e dot fresh t calls = c' := by
  match c with
  | .call t calls =>
    obtain rfl := Option.some.inj hstep
    obtain ⟨t₁, -, ⟨w, -, -, heq⟩ | ⟨-, w, -, -, heq⟩ | ⟨-, heq⟩⟩ := callStep_cases hwf t calls
    · exact absurd heq (hcall _ _)
    · exact absurd heq (hcall _ _)
    · exact absurd heq (hday _ _ _)
  | .day fresh t calls => exact ⟨fresh, t, calls, rfl, Option.some.inj hstep⟩
  | .stop t (waiting :: calls) =>
    obtain rfl := Option.some.inj hstep
    obtain ⟨fresh, heq | ⟨w, -, -, heq⟩⟩ := resume_cases hwf t waiting calls
    · exact absurd heq (hday _ _ _)
    · exact absurd heq (hcall _ _)

/-! ### What every step keeps -/

/-- The time has come to `u`. -/
def Config.From (u : ℤ) : Config → Prop
  | .call t _ => u ≤ t
  | .day _ t _ => u ≤ t
  | .stop t _ => u ≤ t
  | .found t => u ≤ t
  | .out => True

/-- The time never goes back. -/
lemma Config.From.step (hwf : e.WellFormed) {c c' : Config} (h : c.From u)
    (hstep : searchStep e dot c = some c') : c'.From u := by
  match c with
  | .call t calls =>
    obtain rfl := Option.some.inj hstep
    obtain ⟨t₁, hw₁, h'⟩ := callStep_cases hwf t calls
    have hle := hw₁.le
    have := secondAfter_bounds (secondIn e t) t₁
    simp only [Config.From] at h
    rcases h' with ⟨w, hw, hlt, heq⟩ | ⟨-, w, hw, hlt, heq⟩ | ⟨-, heq⟩
    all_goals
      rw [heq]
      simp only [Config.From]
      omega
  | .day fresh t calls =>
    obtain rfl := Option.some.inj hstep
    have hle := le_dayEnd e fresh t
    have hnext := le_nextDay e (t / 86400)
    have := secondAfter_bounds fresh t
    simp only [Config.From] at h
    rcases dayStep_cases e dot fresh t calls with ⟨-, heq⟩ | ⟨-, -, ⟨-, heq⟩ | ⟨-, heq⟩⟩ |
      ⟨hleaves, ⟨-, heq⟩ | ⟨-, heq⟩⟩
    all_goals
      rw [heq]
      simp only [Config.From]
    · omega
    · omega
    · omega
    · have hland := lt_landing hwf.months hleaves.2
      omega
  | .stop t (waiting :: calls) =>
    obtain rfl := Option.some.inj hstep
    simp only [Config.From] at h
    obtain ⟨fresh, heq | ⟨w, hw, hlt, heq⟩⟩ := resume_cases hwf t waiting calls
    · rw [heq]
      exact h
    · have := secondAfter_bounds fresh t
      rw [heq]
      simp only [Config.From]
      omega

/-- The time of day before a day search and after it. -/
def Config.Placed (e : DcmCronExpr) : Config → Prop
  | .call _ _ => True
  | .day _ t _ => TodIn e t ∨ t / 60 = 1440 * (t / 86400)
  | .stop t _ => ¬Matches e t ∧ t / 60 = 1440 * (t / 86400)
  | .found t => Matches e t
  | .out => True

lemma Config.Placed.step (hwf : e.WellFormed) {c c' : Config} (h : c.Placed e)
    (hstep : searchStep e dot c = some c') : c'.Placed e := by
  match c with
  | .call t calls =>
    obtain rfl := Option.some.inj hstep
    obtain ⟨t₁, -, ⟨w, -, -, heq⟩ | ⟨-, w, -, -, heq⟩ | ⟨htod, heq⟩⟩ := callStep_cases hwf t calls
    · rw [heq]
      trivial
    · rw [heq]
      trivial
    · rw [heq]
      exact Or.inl htod
  | .day fresh t calls =>
    obtain rfl := Option.some.inj hstep
    rcases dayStep_cases e dot fresh t calls with ⟨-, heq⟩ |
      ⟨-, hmonth, ⟨hmatch, heq⟩ | ⟨hno, heq⟩⟩ | ⟨-, ⟨-, heq⟩ | ⟨-, heq⟩⟩
    · rw [heq]
      trivial
    · rw [heq]
      exact hmatch
    · rw [heq]
      exact ⟨hno, (dayEnd_cases fresh h hmonth).resolve_left hno⟩
    · rw [heq]
      trivial
    · rw [heq]
      trivial
  | .stop t (waiting :: calls) =>
    obtain rfl := Option.some.inj hstep
    obtain ⟨fresh, heq | ⟨w, -, -, heq⟩⟩ := resume_cases hwf t waiting calls
    · rw [heq]
      exact Or.inr h.2
    · rw [heq]
      trivial

end DcmAgent.Cron
