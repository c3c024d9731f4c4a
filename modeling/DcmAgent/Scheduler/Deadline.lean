import Mathlib.Tactic
import DcmAgent.Scheduler.Thread

/-!
# The deadlines of the callbacks

The deadline is a local variable of the thread. A start of a job that waits already replaces the
expression of the handle, but the loop of the timed wait only tests the flags, which do not change,
and goes on with the old deadline.
-/

namespace DcmAgent.Scheduler

open Library Cron

variable {s s' : DCMScheduler} {currentTime clock : ℤ} {now : Timespec} {pDcmCB : Bool}

/-- The callback is called after a deadline that belongs to the installed expression. -/
def Firing.Faithful (f : Firing) : Prop :=
  ∃ expr, f.installed = some expr ∧
    f.deadline.tvSec = dcmCronParseGetNext expr f.currentTime ∧ f.deadline.toNsec ≤ f.clock

instance (f : Firing) : Decidable f.Faithful :=
  match h : f.installed with
  | none => isFalse fun ⟨_, h', _⟩ => by simp [h] at h'
  | some expr =>
    decidable_of_iff (f.deadline.tvSec = dcmCronParseGetNext expr f.currentTime ∧
      f.deadline.toNsec ≤ f.clock) (by simp [Firing.Faithful, h])

/-- While a job with a callback waits for a deadline, it is only started with patterns that have
the same next firing. -/
def KeepsDeadline (s : DCMScheduler) (a : Action) : Prop :=
  match s.pc, a with
  | .timedWait currentTime now, .startJob (some pattern) =>
    s.terminated = false → s.pDcmCB = true →
      (dcmCronParseExp pattern s.parseData).1 = true →
        now.tvSec = dcmCronParseGetNext (dcmCronParseExp pattern s.parseData).2 currentTime
  | _, _ => True

instance (s : DCMScheduler) (a : Action) : Decidable (KeepsDeadline s a) := by
  unfold KeepsDeadline
  split <;> infer_instance

/-! ### The invariant -/

/-- The deadline of a job that can still fire belongs to the installed expression. -/
def Pending (s : DCMScheduler) (currentTime : ℤ) (now : Timespec) : Prop :=
  s.terminated = false → s.pDcmCB = true →
    ∃ expr, s.installed = some expr ∧ now.tvSec = dcmCronParseGetNext expr currentTime

structure SchedInv (s : DCMScheduler) : Prop where
  data : s.startSched = true → s.installed = some s.parseData
  pending : ∀ currentTime now, s.pc = .timedWait currentTime now → Pending s currentTime now
  fired : ∀ f ∈ s.fired, f.Faithful

lemma SchedInv.goto (h : SchedInv s) {pc : Pc} (hpc : ∀ ct now, pc ≠ .timedWait ct now) :
    SchedInv { s with pc := pc } := by
  refine ⟨h.data, ?_, h.fired⟩
  intro ct now heq
  exact absurd heq (hpc ct now)

lemma SchedInv.schedule (h : SchedInv s) : SchedInv s.schedule := by
  unfold DCMScheduler.schedule
  split_ifs with hterm hstart
  · exact h.goto (by simp)
  · refine ⟨h.data, ?_, h.fired⟩
    intro ct now hpc _ _
    simp only [Pc.timedWait.injEq] at hpc
    obtain ⟨rfl, rfl⟩ := hpc
    refine ⟨s.parseData, h.data hstart, ?_⟩
    simp
  · exact h.goto (by simp)

lemma SchedInv.awaitStart (h : SchedInv s) : SchedInv s.awaitStart := by
  unfold DCMScheduler.awaitStart
  split_ifs
  · exact h.goto (by simp)
  · exact h.schedule

lemma SchedInv.afterWait (h : SchedInv s) {n : WaitResult}
    (hpending : Pending s currentTime now) (hpassed : n = .etimedout → now.toNsec ≤ s.clock) :
    SchedInv (s.afterWait n currentTime now) := by
  unfold DCMScheduler.afterWait
  split_ifs with hterm hn
  · exact h.goto (by simp)
  · unfold DCMScheduler.callback
    split_ifs with hcb
    · refine ⟨h.data, by simp, ?_⟩
      intro f hf
      rcases List.mem_append.mp hf with hf | hf
      · exact h.fired f hf
      · obtain rfl := List.mem_singleton.mp hf
        obtain ⟨expr, hinst, hnext⟩ := hpending (by simpa using hterm) hcb
        exact ⟨expr, hinst, hnext, hpassed hn⟩
    · exact h.goto (by simp)
  · exact h.goto (by simp)

lemma SchedInv.startJob (h : SchedInv s) (pattern : Option (List Char))
    (hguard : KeepsDeadline s (.startJob pattern)) : SchedInv (dcmSchedStartJob s pattern).2 := by
  cases pattern with
  | none => exact h
  | some pattern =>
    simp only [dcmSchedStartJob]
    split_ifs with hacc
    · refine ⟨fun _ => rfl, ?_, h.fired⟩
      intro ct now hpc hterm hcb
      replace hpc : s.pc = .timedWait ct now := hpc
      refine ⟨_, rfl, ?_⟩
      simp only [KeepsDeadline, hpc] at hguard
      exact hguard hterm hcb hacc
    · exact ⟨by simp, h.pending, h.fired⟩

/-- One step keeps the invariant. -/
theorem SchedInv.step (h : SchedInv s) {a : Action} (hguard : KeepsDeadline s a)
    (hstep : schedStep s a = some s') : SchedInv s' := by
  cases a with
  | lock =>
    simp only [schedStep] at hstep
    split_ifs at hstep <;> obtain rfl := Option.some.inj hstep
    · exact h.goto (by simp)
    · exact h.awaitStart
  | waitReturns n =>
    simp only [schedStep] at hstep
    split at hstep
    · split_ifs at hstep <;> obtain rfl := Option.some.inj hstep
      · exact h.awaitStart
      · exact h.goto (by simp)
    · rename_i currentTime now hpc
      have hpending := h.pending _ _ hpc
      cases n with
      | zero =>
        simp only [DCMScheduler.timedWaitReturns] at hstep
        split_ifs at hstep <;> obtain rfl := Option.some.inj hstep
        · refine ⟨h.data, ?_, h.fired⟩
          intro ct now' heq
          obtain ⟨rfl, rfl⟩ := Pc.timedWait.inj heq
          exact hpending
        · exact h.afterWait hpending (by simp)
      | etimedout =>
        simp only [DCMScheduler.timedWaitReturns] at hstep
        split_ifs at hstep with hpassed
        obtain rfl := Option.some.inj hstep
        exact h.afterWait hpending fun _ => hpassed
      | error =>
        obtain rfl := Option.some.inj hstep
        exact h.goto (by simp)
    · cases hstep
  | startJob pattern =>
    obtain rfl := Option.some.inj hstep
    exact h.startJob pattern hguard
  | stopJob =>
    obtain rfl := Option.some.inj hstep
    exact ⟨by simp [dcmSchedStopJob], h.pending, h.fired⟩
  | removeJob =>
    obtain rfl := Option.some.inj hstep
    refine ⟨by simp [dcmSchedRemoveJob], ?_, h.fired⟩
    intro _ _ _ hterm
    cases hterm
  | tick d =>
    obtain rfl := Option.some.inj hstep
    exact ⟨h.data, h.pending, h.fired⟩

lemma schedInv_dcmSchedAddJob : SchedInv (dcmSchedAddJob clock pDcmCB) :=
  ⟨by simp [dcmSchedAddJob], by simp [dcmSchedAddJob], by simp [dcmSchedAddJob]⟩

/-! ### Every callback -/

/-- Once a start has not kept the deadline, the callback can be called for the old one. -/
lemma exists_not_faithful {a : Action} (hno : ¬KeepsDeadline s a)
    (hstep : schedStep s a = some s') :
    ∃ as s'', (schedSystem clock pDcmCB).exec s' as = some s'' ∧ ∃ f ∈ s''.fired, ¬f.Faithful := by
  unfold KeepsDeadline at hno
  split at hno
  swap
  · exact absurd trivial hno
  rename_i ct now pattern hpc
  simp only [Classical.not_imp] at hno
  obtain ⟨hterm, hcb, hacc, hne⟩ := hno
  obtain rfl := Option.some.inj hstep
  set expr := (dcmCronParseExp pattern s.parseData).2
  have hstart : (dcmSchedStartJob s (some pattern)).2 =
      { s with parseData := expr, startSched := true, installed := some expr } := by
    simp [dcmSchedStartJob, hacc, expr]
  -- let the old deadline pass
  set d := (now.toNsec - s.clock).toNat with hd
  have hpassed : now.toNsec ≤ s.clock + d := by omega
  refine ⟨[.tick d, .waitReturns .etimedout],
    { s with
      parseData := expr
      startSched := true
      installed := some expr
      pc := .locking
      clock := s.clock + d
      fired := s.fired ++ [⟨ct, now, s.clock + d, some expr⟩] }, ?_, ?_⟩
  · simp [hstart, schedSystem, schedStep, hpc, DCMScheduler.timedWaitReturns, hpassed,
      DCMScheduler.afterWait, hterm, DCMScheduler.callback, hcb]
  · refine ⟨_, List.mem_append.mpr (Or.inr List.mem_cons_self), ?_⟩
    rintro ⟨expr', hinst, hnext, -⟩
    obtain rfl := Option.some.inj hinst
    exact hne hnext

/-- **Callbacks at the installed deadline.** In every run whose starts keep the pending deadline,
every callback is called after a deadline that belongs to the expression installed last; and after
a start that does not keep it, some run goes on to a callback for the old deadline. -/
theorem fired_faithful (clock : ℤ) (pDcmCB : Bool) :
    (∀ s, (schedSystem clock pDcmCB).Reachable KeepsDeadline s → ∀ f ∈ s.fired, f.Faithful) ∧
      ∀ s a s', (schedSystem clock pDcmCB).Reachable System.anyStep s → ¬KeepsDeadline s a →
        schedStep s a = some s' → ∃ as s'', (schedSystem clock pDcmCB).exec s' as = some s'' ∧
          ∃ f ∈ s''.fired, ¬f.Faithful := by
  constructor
  · intro s hs
    have hinv : SchedInv s := hs.invariant schedInv_dcmSchedAddJob
      fun _ _ _ h hguard hstep => h.step hguard hstep
    exact hinv.fired
  · intro s a s' _ hno hstep
    exact exists_not_faithful hno hstep

/-- A job that is started again with the pattern it has been waiting for. -/
theorem restart_same_pattern :
    ∀ s ∈ (schedSystem 0 true).exec (dcmSchedAddJob 0 true)
        [.startJob (some "*/15 * * * *".toList), .lock, .startJob (some "*/15 * * * *".toList),
          .waitReturns .zero, .tick 900000000000, .waitReturns .etimedout],
      s.fired.length = 1 ∧ ∀ f ∈ s.fired, f.Faithful := by
  intro s hs
  have hrun : (schedSystem 0 true).Respects KeepsDeadline (dcmSchedAddJob 0 true)
      [.startJob (some "*/15 * * * *".toList), .lock, .startJob (some "*/15 * * * *".toList),
        .waitReturns .zero, .tick 900000000000, .waitReturns .etimedout] := by decide +kernel
  refine ⟨?_, (fired_faithful 0 true).1 s (System.Reachable.init.of_exec hrun hs)⟩
  revert s
  decide +kernel

/-- A job is re-started for every quarter of an hour while it waits for five o'clock: the callback
is called at five all the same. -/
theorem restart_keeps_old_deadline :
    ∃ s ∈ (schedSystem 0 true).exec (dcmSchedAddJob 0 true)
        [.startJob (some "0 5 * * *".toList), .lock, .startJob (some "*/15 * * * *".toList),
          .waitReturns .zero, .tick 18000000000000, .waitReturns .etimedout],
      ∃ f ∈ s.fired, ¬f.Faithful := by
  decide +kernel

end DcmAgent.Scheduler
