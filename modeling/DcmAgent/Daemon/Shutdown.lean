import Mathlib.Tactic
import DcmAgent.Library.System

/-!
# Shutting down

`dcmDaemonMainUnInit` frees the command buffer and the settings before it stops and joins the
threads of the two jobs, and the signal handler calls it on whatever thread takes the signal. The
callback of a job runs with the mutex of the job held; here it is split into the parts that use what
is freed.
-/

namespace DcmAgent.Daemon

open Library

inductive Job where
  | log
  | difd
  deriving DecidableEq, Repr

/-- Where the thread of a job is. From `called` to `command` it runs `dcmRunJobs`, and holds the
mutex. -/
inductive JobPc where
  | locking
  | condWait
  | timedWait
  | called
  | getting
  | working
  | command
  | exited
  deriving DecidableEq, Repr

/-- The thread that `dcmDaemonMainUnInit` runs on. -/
inductive Runner where
  | main
  | sched (j : Job)
  | other
  deriving DecidableEq, Repr

/-- The next step of `dcmDaemonMainUnInit`. -/
inductive Stage where
  | freeBuffer
  | freeSettings
  | stop (j : Job)
  | remove (j : Job)
  | join (j : Job)
  | finished
  deriving DecidableEq, Repr

def Stage.next : Stage → Stage
  | .freeBuffer => .freeSettings
  | .freeSettings => .stop .log
  | .stop .log => .stop .difd
  | .stop .difd => .remove .log
  | .remove j => .join j
  | .join .log => .remove .difd
  | .join .difd => .finished
  | .finished => .finished

/-- `mmFlag` is the flag of the maintenance manager, with which `dcmRunJobs` returns at once, and
`starting` the job whose mutex the main thread holds in `dcmSchedStartJob`. -/
structure ShutState where
  mmFlag : Bool
  pc : Job → JobPc
  added : Job → Bool
  startSched : Job → Bool
  terminated : Job → Bool
  starting : Option Job
  unInit : Option (Runner × Stage)
  bufferFreed : Bool
  settingsFreed : Bool

/-- What a wait of a thread returns: after a signal or without one, at the time of the next run, or
with an error. -/
inductive Wakeup where
  | zero
  | timeout
  | error
  deriving DecidableEq, Repr

inductive ShutEvent where
  | lock (j : Job)
  | wake (j : Job) (n : Wakeup)
  | callback (j : Job)
  | lockStart (j : Job)
  | unlockStart (accepted : Bool)
  | unInit (r : Runner)
  | unInitStep
  deriving DecidableEq, Repr

/-- In `dcmRunJobs`. -/
def InCallback : JobPc → Prop
  | .called | .getting | .working | .command => True
  | _ => False

instance (pc : JobPc) : Decidable (InCallback pc) := by unfold InCallback; split <;> infer_instance

def ShutState.MutexFree (s : ShutState) (j : Job) : Prop :=
  ¬InCallback (s.pc j) ∧ s.starting ≠ some j

instance (s : ShutState) (j : Job) : Decidable (s.MutexFree j) :=
  inferInstanceAs (Decidable (_ ∧ _))

/-- The thread does nothing else while it runs the handler. -/
def ShutState.Suspended (s : ShutState) (r : Runner) : Prop := s.unInit.map Prod.fst = some r

instance (s : ShutState) (r : Runner) : Decidable (s.Suspended r) :=
  inferInstanceAs (Decidable (_ = _))

def ShutState.goto (s : ShutState) (j : Job) (pc : JobPc) : ShutState :=
  { s with pc := Function.update s.pc j pc }

/-- From the lock of the mutex to the next wait. -/
def ShutState.toWait (s : ShutState) (j : Job) : ShutState :=
  s.goto j (if s.terminated j then .exited else if s.startSched j then .timedWait else .condWait)

/-- A wait returns with the mutex locked again. -/
def ShutState.wake (s : ShutState) (j : Job) (n : Wakeup) : Option ShutState :=
  match s.pc j, n with
  | .condWait, .zero => some (s.toWait j)
  | .condWait, .error => some (s.goto j .exited)
  | .timedWait, .timeout => some (s.goto j (if s.terminated j then .exited else .called))
  | .timedWait, .zero =>
    some (s.goto j (if s.terminated j then .exited
      else if s.startSched j then .timedWait else .locking))
  | .timedWait, .error => some (s.goto j .exited)
  | _, _ => none

/-- A part of `dcmRunJobs`, up to the unlock behind it. -/
def ShutState.callback (s : ShutState) (j : Job) : Option ShutState :=
  match s.pc j with
  | .called => some (s.goto j (if s.mmFlag then .locking else .getting))
  | .getting => some (s.goto j .working)
  | .working => some (s.goto j .command)
  | .command => some (s.goto j .locking)
  | _ => none

/-- A step of `dcmDaemonMainUnInit`; a handle that is null is skipped. -/
def ShutState.unInitStep (s : ShutState) (r : Runner) (stage : Stage) : Option ShutState :=
  let s' := { s with unInit := some (r, stage.next) }
  match stage with
  | .freeBuffer => some { s' with bufferFreed := true }
  | .freeSettings => some { s' with settingsFreed := true }
  | .stop j =>
    if ¬s.added j then some s'
    else if s.MutexFree j then some { s' with startSched := Function.update s.startSched j false }
    else none
  | .remove j =>
    if ¬s.added j then some s'
    else if s.MutexFree j then
      some { s' with
        startSched := Function.update s.startSched j false
        terminated := Function.update s.terminated j true }
    else none
  | .join j => if ¬s.added j ∨ s.pc j = .exited then some s' else none
  | .finished => none

def shutStep (s : ShutState) : ShutEvent → Option ShutState
  | .lock j =>
    if s.pc j = .locking ∧ s.MutexFree j ∧ ¬s.Suspended (.sched j) then some (s.toWait j) else none
  | .wake j n => if s.MutexFree j ∧ ¬s.Suspended (.sched j) then s.wake j n else none
  | .callback j => if s.Suspended (.sched j) then none else s.callback j
  | .lockStart j =>
    if s.added j ∧ s.starting = none ∧ s.MutexFree j ∧ ¬s.Suspended .main then
      some { s with starting := some j }
    else none
  | .unlockStart accepted =>
    match s.starting with
    | some j =>
      if s.Suspended .main then none
      else some { s with starting := none, startSched := Function.update s.startSched j accepted }
    | none => none
  | .unInit r => if s.unInit = none then some { s with unInit := some (r, .freeBuffer) } else none
  | .unInitStep =>
    match s.unInit with
    | some (r, stage) => s.unInitStep r stage
    | none => none

/-- The daemon with the jobs that could be added. -/
def shutInit (mmFlag : Bool) (added : Job → Bool) : ShutState where
  mmFlag := mmFlag
  pc := fun j => if added j then .locking else .exited
  added := added
  startSched := fun _ => false
  terminated := fun _ => false
  starting := none
  unInit := none
  bufferFreed := false
  settingsFreed := false

def shutSystem (mmFlag : Bool) (added : Job → Bool) : System ShutState ShutEvent where
  init := shutInit mmFlag added
  next := shutStep

/-! ### Safety -/

/-- The texts of the settings are read, up to the end of the upload or of the printing of the
command. -/
def UsesSettings : JobPc → Prop
  | .getting | .working => True
  | _ => False

/-- The command is printed or run. -/
def UsesBuffer : Job → JobPc → Prop
  | .difd, .working => True
  | _, .command => True
  | _, _ => False

/-- The thread `r` holds the mutex of the job. -/
def ShutState.HeldBy (s : ShutState) (j : Job) : Runner → Prop
  | .main => s.starting = some j
  | .sched j' => j' = j ∧ InCallback (s.pc j)
  | .other => False

/-- Nothing is used behind its release, and the shutdown does not wait for its own thread. -/
structure SafeShutdown (s : ShutState) : Prop where
  settings : ∀ j, UsesSettings (s.pc j) → s.settingsFreed = false
  buffer : ∀ j, UsesBuffer j (s.pc j) → s.bufferFreed = false
  mutex : ∀ r j, s.added j = true → s.unInit = some (r, .stop j) ∨ s.unInit = some (r, .remove j) →
    ¬s.HeldBy j r
  join : ∀ r j, s.added j = true → s.unInit = some (r, .join j) → r ≠ .sched j

/-- The thread is in a run of its job that is going to use the settings or the buffer. -/
def ShutState.Busy (s : ShutState) (j : Job) : Prop :=
  InCallback (s.pc j) ∧ (s.pc j = .called → s.mmFlag = false)

def ShutState.Freed (s : ShutState) : Prop := s.bufferFreed = true ∨ s.settingsFreed = true

/-- The shutdown runs on a thread that is none of the jobs and holds no mutex, it releases nothing
while a job is busy, and no job gets busy behind that. -/
def Undisturbed (s : ShutState) : ShutEvent → Prop
  | .unInit r => (∀ j, r ≠ .sched j) ∧ (r = .main → s.starting = none)
  | .unInitStep => ∀ r stage, s.unInit = some (r, stage) →
      stage = .freeBuffer ∨ stage = .freeSettings → ∀ j, ¬s.Busy j
  | .wake j .timeout => s.Freed → s.terminated j = true ∨ s.mmFlag = true
  | _ => True

/-! ### The invariant -/

structure ShutInv (s : ShutState) : Prop where
  idle : s.Freed → ∀ j, ¬s.Busy j
  runner : ∀ r stage, s.unInit = some (r, stage) →
    (∀ j, r ≠ .sched j) ∧ (r = .main → s.starting = none)

variable {mmFlag : Bool} {added : Job → Bool} {s s' : ShutState} {e : ShutEvent}

lemma UsesSettings.busy {j : Job} (h : UsesSettings (s.pc j)) : s.Busy j := by
  unfold ShutState.Busy
  cases hpc : s.pc j <;> rw [hpc] at h <;> first | exact h.elim | exact ⟨trivial, by simp⟩

lemma UsesBuffer.busy {j : Job} (h : UsesBuffer j (s.pc j)) : s.Busy j := by
  unfold ShutState.Busy
  cases j <;> cases hpc : s.pc _ <;> rw [hpc] at h <;>
    first | exact h.elim | exact ⟨trivial, by simp⟩

lemma ShutInv.safeShutdown (h : ShutInv s) : SafeShutdown s where
  settings j hj := by
    by_contra hfreed
    exact h.idle (Or.inr (by simpa using hfreed)) j hj.busy
  buffer j hj := by
    by_contra hfreed
    exact h.idle (Or.inl (by simpa using hfreed)) j hj.busy
  mutex r j _ hstage := by
    have hrunner : (∀ j, r ≠ .sched j) ∧ (r = .main → s.starting = none) :=
      hstage.elim (h.runner r _) (h.runner r _)
    cases r with
    | main =>
      intro hheld
      have hstarting : s.starting = some j := hheld
      rw [hrunner.2 rfl] at hstarting
      cases hstarting
    | sched j' => exact absurd rfl (hrunner.1 j')
    | other => exact not_false
  join r j _ hstage := (h.runner r _ hstage).1 j

/-- A thread that goes on without getting busy. -/
lemma ShutInv.goto (h : ShutInv s) {j : Job} {pc : JobPc}
    (hpc : s.Freed → ¬(s.goto j pc).Busy j) : ShutInv (s.goto j pc) where
  idle hfreed j' := by
    by_cases hj : j' = j
    · rw [hj]
      exact hpc hfreed
    · have hsame : (s.goto j pc).pc j' = s.pc j' := Function.update_of_ne hj ..
      unfold ShutState.Busy
      rw [hsame]
      exact h.idle hfreed j'
  runner := h.runner

lemma not_busy_goto {j : Job} {pc : JobPc} (hpc : ¬InCallback pc) : ¬(s.goto j pc).Busy j := by
  have hself : (s.goto j pc).pc j = pc := Function.update_self ..
  intro hbusy
  rw [ShutState.Busy, hself] at hbusy
  exact hpc hbusy.1

lemma ShutInv.toWait (h : ShutInv s) (j : Job) : ShutInv (s.toWait j) := by
  refine h.goto fun _ => not_busy_goto ?_
  split_ifs <;> exact not_false

lemma ShutInv.wake (h : ShutInv s) {j : Job} {n : Wakeup}
    (hguard : Undisturbed s (.wake j n)) (hnext : s.wake j n = some s') : ShutInv s' := by
  unfold ShutState.wake at hnext
  split at hnext <;> cases hnext
  · exact h.toWait j
  · exact h.goto fun _ => not_busy_goto not_false
  · refine h.goto fun hfreed => ?_
    by_cases hterminated : s.terminated j = true
    · rw [if_pos hterminated]
      exact not_busy_goto not_false
    · -- the run of the job is over at once
      have hflag := (hguard hfreed).resolve_left hterminated
      rw [if_neg hterminated]
      rintro ⟨-, hcalled⟩
      exact absurd (hcalled (Function.update_self ..)) (by simp [ShutState.goto, hflag])
  · refine h.goto fun _ => not_busy_goto ?_
    split_ifs <;> exact not_false
  · exact h.goto fun _ => not_busy_goto not_false

lemma ShutInv.callback (h : ShutInv s) {j : Job} (hnext : s.callback j = some s') :
    ShutInv s' := by
  have hbusy : ∀ pc, s.pc j = pc → InCallback pc → pc ≠ .called → s.Busy j := by
    rintro pc hpc hin hne
    exact ⟨hpc ▸ hin, fun hcalled => absurd (hpc.symm.trans hcalled) hne⟩
  unfold ShutState.callback at hnext
  split at hnext
  case h_1 hpc =>
    cases hnext
    refine h.goto fun hfreed => ?_
    have hflag : s.mmFlag = true := by
      by_contra hunset
      have hcalled : s.Busy j := ⟨by rw [hpc]; trivial, fun _ => by simpa using hunset⟩
      exact h.idle hfreed j hcalled
    rw [if_pos hflag]
    exact not_busy_goto not_false
  case h_2 hpc =>
    cases hnext
    exact h.goto fun hfreed => absurd (hbusy _ hpc trivial (by decide)) (h.idle hfreed j)
  case h_3 hpc =>
    cases hnext
    exact h.goto fun hfreed => absurd (hbusy _ hpc trivial (by decide)) (h.idle hfreed j)
  case h_4 hpc =>
    cases hnext
    exact h.goto fun _ => not_busy_goto not_false
  case h_5 => cases hnext

/-- A step that leaves the threads and the runner as they are. -/
lemma shutInv_of_threads (hpc : s'.pc = s.pc) (hflag : s'.mmFlag = s.mmFlag)
    (hfreed : s'.Freed → ∀ j, ¬s.Busy j)
    (hrunner : ∀ r stage, s'.unInit = some (r, stage) →
      (∀ j, r ≠ .sched j) ∧ (r = .main → s'.starting = none)) : ShutInv s' where
  idle hf j := by
    unfold ShutState.Busy
    rw [hpc, hflag]
    exact hfreed hf j
  runner := hrunner

lemma ShutInv.unInitStep (h : ShutInv s) {r : Runner} {stage : Stage}
    (hstage : s.unInit = some (r, stage)) (hguard : Undisturbed s .unInitStep)
    (hnext : s.unInitStep r stage = some s') : ShutInv s' := by
  have hrunner : ∀ r' stage', some (r, stage.next) = some (r', stage') →
      (∀ j, r' ≠ .sched j) ∧ (r' = .main → s.starting = none) := by
    intro r' stage' heq
    cases heq
    exact h.runner r stage hstage
  unfold ShutState.unInitStep at hnext
  cases stage with
  | freeBuffer =>
    cases hnext
    exact shutInv_of_threads rfl rfl (fun _ => hguard r _ hstage (Or.inl rfl)) hrunner
  | freeSettings =>
    cases hnext
    exact shutInv_of_threads rfl rfl (fun _ => hguard r _ hstage (Or.inr rfl)) hrunner
  | stop j =>
    dsimp only at hnext
    split_ifs at hnext <;> cases hnext <;> exact shutInv_of_threads rfl rfl h.idle hrunner
  | remove j =>
    dsimp only at hnext
    split_ifs at hnext <;> cases hnext <;> exact shutInv_of_threads rfl rfl h.idle hrunner
  | join j =>
    dsimp only at hnext
    split_ifs at hnext
    cases hnext
    exact shutInv_of_threads rfl rfl h.idle hrunner
  | finished => cases hnext

lemma ShutInv.step (h : ShutInv s) (hguard : Undisturbed s e) (hnext : shutStep s e = some s') :
    ShutInv s' := by
  cases e with
  | lock j =>
    simp only [shutStep] at hnext
    split_ifs at hnext
    cases hnext
    exact h.toWait j
  | wake j n =>
    simp only [shutStep] at hnext
    split_ifs at hnext
    exact h.wake hguard hnext
  | callback j =>
    simp only [shutStep] at hnext
    split_ifs at hnext
    exact h.callback hnext
  | lockStart j =>
    simp only [shutStep] at hnext
    split_ifs at hnext with hfree
    cases hnext
    refine shutInv_of_threads rfl rfl h.idle fun r stage hstage => ⟨(h.runner r stage hstage).1, ?_⟩
    -- the main thread is not the one that shuts down
    rintro rfl
    exact absurd (congrArg (Option.map Prod.fst) hstage) hfree.2.2.2
  | unlockStart accepted =>
    simp only [shutStep] at hnext
    split at hnext
    · split_ifs at hnext
      cases hnext
      exact shutInv_of_threads rfl rfl h.idle fun r stage hstage =>
        ⟨(h.runner r stage hstage).1, fun _ => rfl⟩
    · cases hnext
  | unInit r =>
    simp only [shutStep] at hnext
    split_ifs at hnext
    cases hnext
    refine shutInv_of_threads rfl rfl h.idle fun r' stage heq => ?_
    cases heq
    exact hguard
  | unInitStep =>
    simp only [shutStep] at hnext
    split at hnext
    case h_1 r stage hstage => exact h.unInitStep hstage hguard hnext
    case h_2 => cases hnext

lemma shutInv_init : ShutInv (shutInit mmFlag added) where
  idle hfreed := by rcases hfreed with hf | hf <;> cases hf
  runner r stage hstage := by cases hstage

/-- **The shutdown is safe in every run** that nothing disturbs: it runs on a thread that is none of
the jobs and holds no mutex, and no job is busy when it releases something or gets busy later. -/
theorem safeShutdown_of_undisturbed (h : (shutSystem mmFlag added).Reachable Undisturbed s) :
    SafeShutdown s := by
  have hinv : ShutInv s :=
    h.invariant shutInv_init fun s e s' hs hguard hnext => hs.step hguard hnext
  exact hinv.safeShutdown

/-! ### Runs -/

/-- The job for the logs is started and waits. -/
def waitRun : List ShutEvent := [.lockStart .log, .unlockStart true, .lock .log]

/-- The main thread shuts down while both jobs wait. -/
def quietRun : List ShutEvent :=
  waitRun ++ [.lock .difd, .unInit .main, .unInitStep, .unInitStep, .unInitStep, .unInitStep,
    .unInitStep, .wake .log .zero, .unInitStep]

/-- A signal arrives while the logs are uploaded. -/
def uploadRun : List ShutEvent :=
  waitRun ++ [.wake .log .timeout, .callback .log, .callback .log, .unInit .other, .unInitStep,
    .unInitStep]

/-- A signal is handled on the thread of the job. -/
def ownThreadRun : List ShutEvent :=
  waitRun ++ [.wake .log .timeout, .callback .log, .callback .log, .unInit (.sched .log),
    .unInitStep, .unInitStep]

lemma undisturbed_quietRun : (shutSystem false fun _ => true).Respects Undisturbed
    (shutInit false fun _ => true) quietRun := by
  refine ⟨trivial, trivial, trivial, trivial, ⟨by simp, fun _ => rfl⟩, ?_, ?_, ?_, ?_, ?_, trivial,
    ?_, trivial⟩
  all_goals
    intro r stage _ _ j
    unfold ShutState.Busy
    cases j <;> decide

theorem safeShutdown_quietRun : ∃ s, (shutSystem false fun _ => true).exec
    (shutInit false fun _ => true) quietRun = some s ∧ SafeShutdown s :=
  ⟨_, rfl, safeShutdown_of_undisturbed (System.Reachable.of_exec .init undisturbed_quietRun rfl)⟩

/-- The upload goes on with settings that are freed, and a handler on the thread of a job waits for
the mutex of that job. -/
theorem shutdown_during_upload :
    (∃ s, (shutSystem false fun _ => true).exec (shutInit false fun _ => true) uploadRun = some s ∧
      ¬SafeShutdown s) ∧
    ∃ s, (shutSystem false fun _ => true).exec (shutInit false fun _ => true) ownThreadRun =
      some s ∧ ¬SafeShutdown s := by
  refine ⟨⟨_, rfl, fun h => ?_⟩, ⟨_, rfl, fun h => ?_⟩⟩
  · exact absurd (h.settings .log trivial) (by decide)
  · exact h.mutex (.sched .log) .log rfl (Or.inl rfl) ⟨rfl, trivial⟩

end DcmAgent.Daemon
