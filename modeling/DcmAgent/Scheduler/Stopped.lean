import Mathlib.Tactic
import DcmAgent.Scheduler.Thread

/-!
# Callbacks after a stop

A stop and a refused start clear `startSched`. After a timeout the thread only tests `terminated`
before it calls the callback.
-/

namespace DcmAgent.Scheduler

open Library Cron

variable {s s' : DCMScheduler} {a : Action} {clock : ℤ} {pDcmCB : Bool}

/-! ### What the callers have seen -/

/-- A job with what its callers know: a stop or a refused start has returned since the last
successful start. `begun` has the value of `stopped` at each call of the callback. -/
structure Observed where
  job : DCMScheduler
  stopped : Bool
  begun : List Bool
  deriving DecidableEq

/-- What an action does to `stopped`. A start without a pattern refuses nothing. -/
def stoppedAfter (s : DCMScheduler) (a : Action) (stopped : Bool) : Bool :=
  match a with
  | .stopJob => true
  | .startJob (some pattern) => !(dcmSchedStartJob s (some pattern)).1
  | _ => stopped

def observedStep (o : Observed) (a : Action) : Option Observed :=
  (schedStep o.job a).map fun job' =>
    { job := job'
      stopped := stoppedAfter o.job a o.stopped
      begun := if o.job.fired.length < job'.fired.length then o.begun ++ [o.stopped] else o.begun }

def observedSystem (clock : ℤ) (pDcmCB : Bool) : System Observed Action where
  init := ⟨dcmSchedAddJob clock pDcmCB, false, []⟩
  next := observedStep

/-! ### When the callback is called -/

/-- A timed wait of a job with a callback times out, and the job has not been removed. -/
def TimesOut (s : DCMScheduler) (a : Action) : Prop :=
  match s.pc, a with
  | .timedWait _ _, .waitReturns .etimedout => s.terminated = false ∧ s.pDcmCB = true
  | _, _ => False

instance (s : DCMScheduler) (a : Action) : Decidable (TimesOut s a) :=
  decidable_of_iff ((match s.pc, a with
    | .timedWait _ _, .waitReturns .etimedout => !s.terminated && s.pDcmCB
    | _, _ => false) = true) (by unfold TimesOut; split <;> simp)

/-- A timed wait only times out while the job is started. -/
def StartedAtTimeout (o : Observed) (a : Action) : Prop :=
  TimesOut o.job a → o.job.startSched = true

instance (o : Observed) (a : Action) : Decidable (StartedAtTimeout o a) :=
  inferInstanceAs (Decidable (_ → _))

@[simp] lemma fired_schedule : s.schedule.fired = s.fired := by
  unfold DCMScheduler.schedule
  split_ifs <;> rfl

@[simp] lemma fired_awaitStart : s.awaitStart.fired = s.fired := by
  unfold DCMScheduler.awaitStart
  split_ifs <;> simp

@[simp] lemma fired_dcmSchedStartJob (pattern : Option (List Char)) :
    (dcmSchedStartJob s pattern).2.fired = s.fired := by
  cases pattern with
  | none => rfl
  | some pattern =>
    simp only [dcmSchedStartJob]
    split_ifs <;> rfl

/-- The callback is called exactly by the timeouts. -/
lemma fired_lt_iff (hstep : schedStep s a = some s') :
    s.fired.length < s'.fired.length ↔ TimesOut s a := by
  unfold TimesOut
  cases a with
  | lock =>
    simp only [schedStep] at hstep
    split_ifs at hstep <;> obtain rfl := Option.some.inj hstep <;> simp
  | waitReturns n =>
    cases hpc : s.pc with
    | condWait =>
      simp only [schedStep, hpc] at hstep
      split_ifs at hstep <;> obtain rfl := Option.some.inj hstep <;> simp
    | timedWait ct now =>
      simp only [schedStep, hpc] at hstep
      cases n with
      | zero =>
        simp only [DCMScheduler.timedWaitReturns, DCMScheduler.afterWait] at hstep
        split_ifs at hstep <;> obtain rfl := Option.some.inj hstep <;> simp at *
      | etimedout =>
        simp only [DCMScheduler.timedWaitReturns, DCMScheduler.afterWait,
          DCMScheduler.callback] at hstep
        split_ifs at hstep with _ hterm hcb <;> obtain rfl := Option.some.inj hstep
        · simp [hterm]
        · simpa [hcb] using hterm
        · simp [hcb]
      | error =>
        obtain rfl := Option.some.inj hstep
        simp
    | _ => simp [schedStep, hpc] at hstep
  | _ =>
    obtain rfl := Option.some.inj hstep
    simp [dcmSchedStopJob, dcmSchedRemoveJob]

/-! ### The invariant -/

/-- A started job is not stopped; and a job that is in its timed wait is started unless it has been
stopped or removed. -/
structure ObservedInv (o : Observed) : Prop where
  started : o.job.startSched = true → o.stopped = false
  waiting : ∀ ct now, o.job.pc = .timedWait ct now → o.job.terminated = false →
    o.stopped = false → o.job.startSched = true

/-- What a step of the thread keeps: the flags, and it only enters a timed wait of a started
job. -/
structure ThreadStep (s s' : DCMScheduler) : Prop where
  startSched : s'.startSched = s.startSched
  terminated : s'.terminated = s.terminated
  waiting : ∀ ct now, s'.pc = .timedWait ct now → s.startSched = true ∨ s.pc = .timedWait ct now

lemma threadStep_schedule : ThreadStep s s.schedule := by
  unfold DCMScheduler.schedule
  split_ifs with _ hstart
  · exact ⟨rfl, rfl, by simp⟩
  · exact ⟨rfl, rfl, fun _ _ _ => Or.inl hstart⟩
  · exact ⟨rfl, rfl, by simp⟩

lemma threadStep_awaitStart : ThreadStep s s.awaitStart := by
  unfold DCMScheduler.awaitStart
  split_ifs
  · exact ⟨rfl, rfl, by simp⟩
  · exact threadStep_schedule

lemma threadStep_afterWait (n : WaitResult) (ct : ℤ) (now : Timespec) :
    ThreadStep s (s.afterWait n ct now) := by
  unfold DCMScheduler.afterWait DCMScheduler.callback
  split_ifs <;> exact ⟨rfl, rfl, by simp⟩

lemma threadStep_of_schedStep (ha : a = .lock ∨ ∃ n, a = .waitReturns n)
    (hstep : schedStep s a = some s') : ThreadStep s s' := by
  obtain rfl | ⟨n, rfl⟩ := ha
  · simp only [schedStep] at hstep
    split_ifs at hstep <;> obtain rfl := Option.some.inj hstep
    · exact ⟨rfl, rfl, by simp⟩
    · exact threadStep_awaitStart
  · simp only [schedStep] at hstep
    split at hstep
    · split_ifs at hstep <;> obtain rfl := Option.some.inj hstep
      · exact threadStep_awaitStart
      · exact ⟨rfl, rfl, by simp⟩
    · rename_i ct now hpc
      cases n with
      | zero =>
        simp only [DCMScheduler.timedWaitReturns] at hstep
        split_ifs at hstep <;> obtain rfl := Option.some.inj hstep
        · refine ⟨rfl, rfl, ?_⟩
          intro ct' now' heq
          exact Or.inr (hpc.trans heq)
        · exact threadStep_afterWait _ _ _
      | etimedout =>
        simp only [DCMScheduler.timedWaitReturns] at hstep
        split_ifs at hstep
        obtain rfl := Option.some.inj hstep
        exact threadStep_afterWait _ _ _
      | error =>
        obtain rfl := Option.some.inj hstep
        exact ⟨rfl, rfl, by simp⟩
    · cases hstep

lemma ObservedInv.thread {o : Observed} (h : ObservedInv o) {begun : List Bool}
    (hs : ThreadStep o.job s') : ObservedInv ⟨s', o.stopped, begun⟩ := by
  constructor
  · intro hstart
    exact h.started (hs.startSched ▸ hstart)
  · intro ct now hpc hterm hstop
    rw [hs.startSched]
    rcases hs.waiting ct now hpc with hstart | hpc
    · exact hstart
    · exact h.waiting ct now hpc (hs.terminated ▸ hterm) hstop

/-- One step keeps the invariant. -/
lemma ObservedInv.step {o o' : Observed} (h : ObservedInv o) (hstep : observedStep o a = some o') :
    ObservedInv o' := by
  obtain ⟨s', hs, rfl⟩ := Option.map_eq_some_iff.mp hstep
  cases a with
  | lock => exact h.thread (threadStep_of_schedStep (Or.inl rfl) hs)
  | waitReturns n => exact h.thread (threadStep_of_schedStep (Or.inr ⟨n, rfl⟩) hs)
  | startJob pattern =>
    obtain rfl := Option.some.inj hs
    cases pattern with
    | none => exact h.thread ⟨rfl, rfl, fun _ _ hpc => Or.inr hpc⟩
    | some pattern =>
      simp only [dcmSchedStartJob, stoppedAfter]
      split_ifs <;> exact ⟨by simp, by simp⟩
  | stopJob =>
    obtain rfl := Option.some.inj hs
    exact ⟨by simp [dcmSchedStopJob], by simp [stoppedAfter]⟩
  | removeJob =>
    obtain rfl := Option.some.inj hs
    exact ⟨by simp [dcmSchedRemoveJob], by simp [dcmSchedRemoveJob]⟩
  | tick d =>
    obtain rfl := Option.some.inj hs
    exact h.thread ⟨rfl, rfl, fun _ _ hpc => Or.inr hpc⟩

lemma observedInv_init : ObservedInv ((observedSystem clock pDcmCB).init) :=
  ⟨by simp [observedSystem, dcmSchedAddJob], by simp [observedSystem, dcmSchedAddJob]⟩

/-! ### No callback while stopped -/

/-- A step begins no callback while the job is stopped exactly when it respects the guard. -/
lemma begun_step {o o' : Observed} (h : ObservedInv o) (hstep : observedStep o a = some o') :
    (∀ b ∈ o'.begun, b = false) ↔ (∀ b ∈ o.begun, b = false) ∧ StartedAtTimeout o a := by
  obtain ⟨s', hs, rfl⟩ := Option.map_eq_some_iff.mp hstep
  simp only [fired_lt_iff hs, StartedAtTimeout]
  split_ifs with hto
  · have hiff : o.stopped = false ↔ o.job.startSched = true := by
      refine ⟨?_, h.started⟩
      intro hstop
      cases hpc : o.job.pc with
      | timedWait ct now =>
        cases a with
        | waitReturns n =>
          cases n <;> simp only [TimesOut, hpc] at hto
          exact h.waiting ct now hpc hto.1 hstop
        | _ => simp [TimesOut, hpc] at hto
      | _ => simp [TimesOut, hpc] at hto
    simp [hto, hiff, or_imp, forall_and]
  · simp [hto]

/-- **No callback while stopped.** A run begins no callback between a stop or a refused start and
the next successful start exactly when none of its timed waits times out while `startSched` is
clear. -/
theorem no_callback_while_stopped (clock : ℤ) (pDcmCB : Bool) (as : List Action) (o : Observed)
    (h : (observedSystem clock pDcmCB).exec (observedSystem clock pDcmCB).init as = some o) :
    (∀ b ∈ o.begun, b = false) ↔
      (observedSystem clock pDcmCB).Respects StartedAtTimeout
        (observedSystem clock pDcmCB).init as := by
  have hrun := System.exec_iff_respects (I := ObservedInv) (P := fun o => ∀ b ∈ o.begun, b = false)
    (fun _ _ _ h hstep => h.step hstep) (fun _ _ _ h hstep => begun_step h hstep)
    observedInv_init h
  rw [hrun]
  simp [observedSystem]

/-- A stop that wakes the thread from its second wait. -/
theorem stop_wakes_thread :
    ∃ o ∈ (observedSystem 0 true).exec (observedSystem 0 true).init
        [.startJob (some "*/15 * * * *".toList), .lock, .tick 900000000000, .waitReturns .etimedout,
          .lock, .stopJob, .tick 900000000000, .waitReturns .zero],
      o.stopped = true ∧ o.begun.length = 1 ∧ ∀ b ∈ o.begun, b = false := by
  have hrun : ∃ o ∈ (observedSystem 0 true).exec (observedSystem 0 true).init
      [.startJob (some "*/15 * * * *".toList), .lock, .tick 900000000000, .waitReturns .etimedout,
        .lock, .stopJob, .tick 900000000000, .waitReturns .zero],
      o.stopped = true ∧ o.begun.length = 1 := by decide +kernel
  obtain ⟨o, ho, hstop, hbegun⟩ := hrun
  refine ⟨o, ho, hstop, hbegun, ?_⟩
  apply (no_callback_while_stopped 0 true _ o ho).mpr
  decide +kernel

/-- The pattern of a waiting job is replaced by one that is refused, which wakes nobody; and a job
is stopped when its wait has timed out already. The callback is called both times. -/
theorem callback_while_stopped :
    (∃ o ∈ (observedSystem 0 true).exec (observedSystem 0 true).init
        [.startJob (some "*/15 * * * *".toList), .lock, .startJob (some "0 25 * * *".toList),
          .tick 900000000000, .waitReturns .etimedout], o.begun = [true]) ∧
      ∃ o ∈ (observedSystem 0 true).exec (observedSystem 0 true).init
          [.startJob (some "*/15 * * * *".toList), .lock, .tick 900000000000, .stopJob,
            .waitReturns .etimedout], o.begun = [true] := by
  decide +kernel

end DcmAgent.Scheduler
