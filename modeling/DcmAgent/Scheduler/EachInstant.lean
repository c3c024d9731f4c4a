import Mathlib.Tactic
import DcmAgent.Library.Enumeration
import DcmAgent.Cron.Regular
import DcmAgent.Scheduler.Instants

/-!
# A callback at every instant

The thread computes a deadline, waits for it, calls the callback, and computes the next deadline
from the time it is then. For a regular pattern the deadlines are the instants of the pattern, one
after the other, as long as the thread comes back in time: an instant that passes between a call and
the computation after it is not waited for.
-/

namespace DcmAgent.Scheduler

open Library Cron

variable {s s' s₁ : DCMScheduler} {a : Action} {currentTime clock start : ℤ} {now : Timespec}
  {pDcmCB : Bool} {expr : DcmCronExpr} {x : CronExp}

/-! ### What a step can do -/

/-- A step that calls no callback and computes no deadline. -/
structure Keeps (s s' : DCMScheduler) : Prop where
  fired : s'.fired = s.fired
  clock : s.clock ≤ s'.clock
  started : s'.startSched = true → s.startSched = true ∧ s'.parseData = s.parseData
  waiting : ∀ ct now, s'.pc = .timedWait ct now → s.pc = .timedWait ct now

inductive StepRule (s : DCMScheduler) (a : Action) : DCMScheduler → Prop where
  | keeps {s' : DCMScheduler} (h : Keeps s s') : StepRule s a s'
  | schedules (h : Schedules s a) : StepRule s a { s with
      pc := .timedWait (s.clock / nsecPerSec)
        ⟨dcmCronParseGetNext s.parseData (s.clock / nsecPerSec), s.clock % nsecPerSec⟩ }
  | fires (currentTime : ℤ) (now : Timespec) (hpc : s.pc = .timedWait currentTime now)
      (hpassed : now.toNsec ≤ s.clock) : StepRule s a { s with
      pc := .locking
      fired := s.fired ++ [⟨currentTime, now, s.clock, s.installed⟩] }

lemma Keeps.goto {pc : Pc} (hpc : ∀ ct now, pc ≠ .timedWait ct now) :
    Keeps s { s with pc := pc } :=
  ⟨rfl, le_rfl, fun h => ⟨h, rfl⟩, fun ct now heq => absurd heq (hpc ct now)⟩

lemma StepRule.schedule
    (ha : s.pc = .locking ∧ a = .lock ∨ s.pc = .condWait ∧ a = .waitReturns .zero) :
    StepRule s a s.schedule := by
  unfold DCMScheduler.schedule
  split_ifs with hterm hstart
  · exact .keeps (.goto (by simp))
  · simp only [clockGettime, add_sub_cancel]
    exact .schedules ⟨hstart, by simpa using hterm, ha⟩
  · exact .keeps (.goto (by simp))

lemma StepRule.awaitStart
    (ha : s.pc = .locking ∧ a = .lock ∨ s.pc = .condWait ∧ a = .waitReturns .zero) :
    StepRule s a s.awaitStart := by
  unfold DCMScheduler.awaitStart
  split_ifs
  · exact .keeps (.goto (by simp))
  · exact .schedule ha

lemma StepRule.afterWait {n : WaitResult} (hpc : s.pc = .timedWait currentTime now)
    (hpassed : n = .etimedout → now.toNsec ≤ s.clock) :
    StepRule s a (s.afterWait n currentTime now) := by
  unfold DCMScheduler.afterWait
  split_ifs with hterm hn
  · exact .keeps (.goto (by simp))
  · unfold DCMScheduler.callback
    split_ifs
    · exact .fires currentTime now hpc (hpassed hn)
    · exact .keeps (.goto (by simp))
  · exact .keeps (.goto (by simp))

lemma StepRule.of_schedStep (hno : NoStart s a) (hstep : schedStep s a = some s') :
    StepRule s a s' := by
  cases a with
  | lock =>
    simp only [schedStep] at hstep
    split_ifs at hstep with hpc <;> obtain rfl := Option.some.inj hstep
    · exact .keeps (.goto (by simp))
    · exact .awaitStart (Or.inl ⟨hpc, rfl⟩)
  | waitReturns n =>
    simp only [schedStep] at hstep
    split at hstep
    · rename_i hpc
      split_ifs at hstep with hn <;> obtain rfl := Option.some.inj hstep
      · exact .awaitStart (Or.inr ⟨hpc, by rw [hn]⟩)
      · exact .keeps (.goto (by simp))
    · rename_i ct now hpc
      cases n with
      | zero =>
        simp only [DCMScheduler.timedWaitReturns] at hstep
        split_ifs at hstep <;> obtain rfl := Option.some.inj hstep
        · refine .keeps ⟨rfl, le_rfl, fun h => ⟨h, rfl⟩, fun ct' now' heq => ?_⟩
          exact hpc.trans heq
        · exact .afterWait hpc (by simp)
      | etimedout =>
        simp only [DCMScheduler.timedWaitReturns] at hstep
        split_ifs at hstep with hpassed
        obtain rfl := Option.some.inj hstep
        exact .afterWait hpc fun _ => hpassed
      | error =>
        obtain rfl := Option.some.inj hstep
        exact .keeps (.goto (by simp))
    · cases hstep
  | startJob pattern =>
    obtain rfl := Option.some.inj hstep
    cases pattern with
    | none => exact .keeps ⟨rfl, le_rfl, fun h => ⟨h, rfl⟩, fun _ _ h => h⟩
    | some pattern =>
      simp only [dcmSchedStartJob]
      split_ifs with hacc
      · exact absurd hacc hno
      · exact .keeps ⟨rfl, le_rfl, by simp, fun _ _ h => h⟩
  | stopJob =>
    obtain rfl := Option.some.inj hstep
    exact .keeps ⟨rfl, le_rfl, by simp [dcmSchedStopJob], fun _ _ h => h⟩
  | removeJob =>
    obtain rfl := Option.some.inj hstep
    exact .keeps ⟨rfl, le_rfl, by simp [dcmSchedRemoveJob], fun _ _ h => h⟩
  | tick d =>
    obtain rfl := Option.some.inj hstep
    exact .keeps ⟨rfl, by simp, fun h => ⟨h, rfl⟩, fun _ _ h => h⟩

/-! ### The invariant -/

/-- The instants that the callback has been called for. -/
def DCMScheduler.instants (s : DCMScheduler) : List ℤ := s.fired.map (·.deadline.tvSec)

/-- The instant of the last call, or the start. -/
def lastInstant (start : ℤ) (s : DCMScheduler) : ℤ := s.instants.getLastD (start / nsecPerSec)

/-- When the thread computes a deadline, no instant has passed since the one of the last call, or
since the start when there was no call. -/
def InTime (x : CronExp) (start : ℤ) (s : DCMScheduler) (a : Action) : Prop :=
  Schedules s a → InCalendar (s.clock / nsecPerSec) ∧
    ∀ t, lastInstant start s < t → t ≤ s.clock / nsecPerSec → ¬x.FiresAt t

/-- Every instant up to the last one has been called for, and a pending deadline is the next. -/
structure EachInstant (instants : Set ℤ) (expr : DcmCronExpr) (start : ℤ) (s : DCMScheduler) :
    Prop where
  data : s.startSched = true → s.parseData = expr
  nonneg : 0 ≤ s.clock
  passed : lastInstant start s ≤ s.clock / nsecPerSec
  enumerates : Enumerates instants (start / nsecPerSec) s.instants
  pending : ∀ ct now, s.pc = .timedWait ct now →
    0 ≤ now.tvNsec ∧ IsLeast {t | lastInstant start s < t ∧ t ∈ instants} now.tvSec

variable {instants : Set ℤ}

lemma EachInstant.keeps (h : EachInstant instants expr start s) (hkeeps : Keeps s s') :
    EachInstant instants expr start s' := by
  have hinst : s'.instants = s.instants := by
    rw [DCMScheduler.instants, hkeeps.fired, DCMScheduler.instants]
  have hlast : lastInstant start s' = lastInstant start s := by rw [lastInstant, hinst, lastInstant]
  have hclock := Int.ediv_le_ediv (show 0 < nsecPerSec by norm_num [nsecPerSec]) hkeeps.clock
  refine ⟨fun hstart => ?_, h.nonneg.trans hkeeps.clock, ?_, ?_, fun ct now hpc => ?_⟩
  · obtain ⟨hstart, hdata⟩ := hkeeps.started hstart
    exact hdata.trans (h.data hstart)
  · rw [hlast]
    exact h.passed.trans hclock
  · rw [hinst]
    exact h.enumerates
  · rw [hlast]
    exact h.pending ct now (hkeeps.waiting ct now hpc)

/-- A call takes the next instant. -/
lemma EachInstant.fires (h : EachInstant instants expr start s)
    (hpc : s.pc = .timedWait currentTime now) (hpassed : now.toNsec ≤ s.clock) :
    EachInstant instants expr start { s with
      pc := .locking
      fired := s.fired ++ [⟨currentTime, now, s.clock, s.installed⟩] } := by
  obtain ⟨hnsec, hleast⟩ := h.pending _ _ hpc
  have hinst : DCMScheduler.instants { s with
      pc := .locking
      fired := s.fired ++ [⟨currentTime, now, s.clock, s.installed⟩] } =
      s.instants ++ [now.tvSec] := by simp [DCMScheduler.instants]
  refine ⟨h.data, h.nonneg, ?_, ?_, by simp⟩
  · rw [lastInstant, hinst, List.getLastD_concat]
    simp only [Timespec.toNsec, nsecPerSec] at hpassed ⊢
    omega
  · rw [hinst]
    exact h.enumerates.snoc hleast

/-- In time, the next instant after the clock is the next one after the last call. -/
lemma EachInstant.schedules (hreg : expr.Regular) (hwf : expr.WellFormed)
    (hinst : ∀ t, t ∈ instants ↔ Matches expr t) (h : EachInstant instants expr start s)
    (hstart : s.startSched = true) (hcal : InCalendar (s.clock / nsecPerSec))
    (hlate : ∀ t, lastInstant start s < t → t ≤ s.clock / nsecPerSec → t ∉ instants) :
    EachInstant instants expr start { s with
      pc := .timedWait (s.clock / nsecPerSec)
        ⟨dcmCronParseGetNext s.parseData (s.clock / nsecPerSec), s.clock % nsecPerSec⟩ } := by
  refine ⟨h.data, h.nonneg, h.passed, h.enumerates, fun ct now hpc => ?_⟩
  obtain ⟨rfl, rfl⟩ := Pc.timedWait.inj hpc
  have hnsec : 0 < nsecPerSec := by norm_num [nsecPerSec]
  refine ⟨Int.emod_nonneg _ hnsec.ne', ?_⟩
  have hnext := hreg.isLeast_getNext hwf (Int.ediv_nonneg h.nonneg hnsec.le) hcal
  obtain ⟨⟨hlater, hmatch⟩, hleast⟩ := hnext
  rw [h.data hstart]
  refine ⟨⟨h.passed.trans_lt hlater, (hinst _).mpr hmatch⟩, ?_⟩
  rintro t ⟨hlast, hin⟩
  by_cases hle : t ≤ s.clock / nsecPerSec
  · exact absurd hin (hlate t hlast hle)
  · exact hleast ⟨not_le.mp hle, (hinst t).mp hin⟩

lemma EachInstant.step (hreg : expr.Regular) (hwf : expr.WellFormed) (hx : x.Denotes expr)
    (h : EachInstant {t | x.FiresAt t} expr start s) (hno : NoStart s a)
    (htime : InTime x start s a) (hstep : schedStep s a = some s') :
    EachInstant {t | x.FiresAt t} expr start s' := by
  cases StepRule.of_schedStep hno hstep with
  | keeps hkeeps => exact h.keeps hkeeps
  | schedules hsched =>
    obtain ⟨hcal, hlate⟩ := htime hsched
    exact h.schedules hreg hwf (fun t => hx.firesAt_iff) hsched.1 hcal hlate
  | fires ct now hpc hpassed => exact h.fires hpc hpassed

/-- **A callback at every instant.** In every run after one successful start with a regular
pattern, whose deadlines are all computed in time, the callback has been called for the instants of
the expression after the start, in order and without a gap, and the deadline that the thread waits
for is the next of them. -/
theorem called_at_each_instant (hclock : 0 ≤ clock)
    (hs₁ : (schedSystem clock pDcmCB).Reachable NoStart s₁) {pattern : List Char}
    (hacc : (dcmCronParseExp pattern s₁.parseData).1 = true)
    (hx : x.Denotes (dcmCronParseExp pattern s₁.parseData).2) (hreg : x.Regular)
    (hs : (startedSystem s₁ pattern).Reachable
      (fun s a => NoStart s a ∧ InTime x s₁.clock s a) s) :
    Enumerates {t | x.FiresAt t} (s₁.clock / nsecPerSec) s.instants ∧
      ∀ ct now, s.pc = .timedWait ct now →
        IsLeast {t | lastInstant s₁.clock s < t ∧ x.FiresAt t} now.tvSec := by
  have hwf := wellFormed_of_accepted hacc
  have hidle : Idle s₁ := hs₁.invariant (idle_dcmSchedAddJob hclock)
    fun _ _ _ h hno hstep => h.step hno hstep
  have hinit : EachInstant {t | x.FiresAt t} (dcmCronParseExp pattern s₁.parseData).2 s₁.clock
      (startedSystem s₁ pattern).init := by
    simp only [startedSystem, dcmSchedStartJob, hacc, if_true]
    refine ⟨fun _ => rfl, hidle.nonneg, ?_, ?_, fun ct now hpc => absurd hpc (hidle.waiting ct now)⟩
    · simp [lastInstant, DCMScheduler.instants, hidle.fired]
    · simp only [DCMScheduler.instants, hidle.fired, List.map_nil]
      exact Enumerates.nil
  have hinv := hs.invariant hinit fun _ _ _ h hguard hstep =>
    h.step (hreg.pattern hwf hx) hwf hx hguard.1 hguard.2 hstep
  exact ⟨hinv.enumerates, fun ct now hpc => (hinv.pending ct now hpc).2⟩

/-- From 1970-01-01 the callback is called on January 4, and the thread waits for January 11. -/
theorem called_on_sundays :
    ∃ s ∈ (startedSystem (dcmSchedAddJob 0 true) sundays.render).exec
        (startedSystem (dcmSchedAddJob 0 true) sundays.render).init
        [.lock, .tick 267300000000000, .waitReturns .etimedout, .lock],
      s.instants = [267300] ∧ Enumerates {t | sundays.FiresAt t} 0 s.instants ∧
        IsLeast {t | 267300 < t ∧ sundays.FiresAt t} 872100 := by
  have hrun : ∃ s ∈ (startedSystem (dcmSchedAddJob 0 true) sundays.render).exec
      (startedSystem (dcmSchedAddJob 0 true) sundays.render).init
      [.lock, .tick 267300000000000, .waitReturns .etimedout, .lock],
      s.instants = [267300] ∧ s.pc = .timedWait 267300 ⟨872100, 0⟩ := by decide +kernel
  have hprompt : (startedSystem (dcmSchedAddJob 0 true) sundays.render).Respects
      (fun s a => NoStart s a ∧ (Schedules s a →
        InCalendar (s.clock / nsecPerSec) ∧ s.clock / nsecPerSec ≤ lastInstant 0 s))
      (startedSystem (dcmSchedAddJob 0 true) sundays.render).init
      [.lock, .tick 267300000000000, .waitReturns .etimedout, .lock] := by decide +kernel
  have htime : ∀ s a, (NoStart s a ∧
      (Schedules s a →
        InCalendar (s.clock / nsecPerSec) ∧ s.clock / nsecPerSec ≤ lastInstant 0 s)) →
        NoStart s a ∧ InTime sundays 0 s a := by
    rintro s a ⟨hno, hprompt⟩
    refine ⟨hno, fun hsched => ⟨(hprompt hsched).1, fun t hlast hle => ?_⟩⟩
    have := (hprompt hsched).2
    omega
  obtain ⟨s, hs, hinst, hpc⟩ := hrun
  have hidle : (schedSystem 0 true).Reachable NoStart (dcmSchedAddJob 0 true) :=
    System.Reachable.init
  obtain ⟨henum, hpending⟩ := called_at_each_instant le_rfl hidle (by decide +kernel)
    denotes_sundays regular_sundays (System.Reachable.init.of_exec (hprompt.mono htime) hs)
  refine ⟨s, hs, hinst, henum, ?_⟩
  have hnext := hpending _ _ hpc
  rwa [lastInstant, hinst] at hnext

end DcmAgent.Scheduler
