import Mathlib.Tactic
import DcmAgent.Cron.Next
import DcmAgent.Library.System

/-!
# The scheduler thread

Each job has a thread that waits for its next firing. The sections under the mutex of the handle
are atomic steps; a wait releases the mutex, and other calls run before it returns. The clock
counts nanoseconds.
-/

namespace DcmAgent.Scheduler

open Library Cron

def nsecPerSec : ℤ := 1000000000

structure Timespec where
  tvSec : ℤ
  tvNsec : ℤ
  deriving DecidableEq, Repr

def Timespec.toNsec (t : Timespec) : ℤ := nsecPerSec * t.tvSec + t.tvNsec

def clockGettime (clock : ℤ) : Timespec := ⟨clock / nsecPerSec, clock % nsecPerSec⟩

/-- What a wait returns: `0` after a signal or spuriously, `ETIMEDOUT`, or another error. -/
inductive WaitResult where
  | zero
  | etimedout
  | error
  deriving DecidableEq, Repr

/-- Where the thread is. A timed wait keeps its deadline and the time it has been computed at. -/
inductive Pc where
  | locking
  | condWait
  | timedWait (currentTime : ℤ) (now : Timespec)
  | exited
  deriving DecidableEq, Repr

/-- A call of the job callback. -/
structure Firing where
  currentTime : ℤ
  deadline : Timespec
  clock : ℤ
  installed : Option DcmCronExpr
  deriving DecidableEq

/-- The handle of a job, with its thread and the clock. `installed` is the expression of the last
successful start, and `fired` are the calls of the callback. -/
structure DCMScheduler where
  terminated : Bool
  startSched : Bool
  parseData : DcmCronExpr
  pDcmCB : Bool
  pc : Pc
  clock : ℤ
  installed : Option DcmCronExpr
  fired : List Firing
  deriving DecidableEq

/-! ### The thread -/

/-- From the end of the first wait to the timed wait. -/
def DCMScheduler.schedule (s : DCMScheduler) : DCMScheduler :=
  if s.terminated then { s with pc := .exited }
  else if s.startSched then
    let now := clockGettime s.clock
    let currentTime := now.tvSec
    let timeOffset := dcmCronParseGetNext s.parseData currentTime
    { s with
      pc := .timedWait currentTime { now with tvSec := now.tvSec + (timeOffset - currentTime) } }
  else { s with pc := .locking }

/-- The first wait, until a job is started. -/
def DCMScheduler.awaitStart (s : DCMScheduler) : DCMScheduler :=
  if ¬s.startSched ∧ ¬s.terminated then { s with pc := .condWait } else s.schedule

def DCMScheduler.callback (s : DCMScheduler) (currentTime : ℤ) (now : Timespec) : DCMScheduler :=
  if s.pDcmCB then { s with fired := s.fired ++ [⟨currentTime, now, s.clock, s.installed⟩] } else s

/-- After the loop of the timed wait. -/
def DCMScheduler.afterWait (s : DCMScheduler) (n : WaitResult) (currentTime : ℤ)
    (now : Timespec) : DCMScheduler :=
  if s.terminated then { s with pc := .exited }
  else if n = .etimedout then { s.callback currentTime now with pc := .locking }
  else { s with pc := .locking }

/-- One turn of the loop of the timed wait. The deadline must have passed for a timeout. -/
def DCMScheduler.timedWaitReturns (s : DCMScheduler) (n : WaitResult) (currentTime : ℤ)
    (now : Timespec) : Option DCMScheduler :=
  match n with
  | .etimedout => if now.toNsec ≤ s.clock then some (s.afterWait n currentTime now) else none
  | .error => some { s with pc := .exited }
  | .zero =>
    -- the deadline stays what it was when the wait goes on
    if s.startSched ∧ ¬s.terminated then some { s with pc := .timedWait currentTime now }
    else some (s.afterWait n currentTime now)

/-! ### Calls on the handle -/

/-- The expression is parsed into the handle also when the pattern is refused. -/
def dcmSchedStartJob (s : DCMScheduler) (pCronPattern : Option (List Char)) :
    Bool × DCMScheduler :=
  match pCronPattern with
  | none => (false, s)
  | some pattern =>
    let ret := dcmCronParseExp pattern s.parseData
    if ret.1 then
      (true, { s with parseData := ret.2, startSched := true, installed := some ret.2 })
    else (false, { s with parseData := ret.2, startSched := false })

def dcmSchedStopJob (s : DCMScheduler) : DCMScheduler := { s with startSched := false }

def dcmSchedRemoveJob (s : DCMScheduler) : DCMScheduler :=
  { s with startSched := false, terminated := true }

/-- A new handle at some time, with a callback or without one. -/
def dcmSchedAddJob (clock : ℤ) (pDcmCB : Bool) : DCMScheduler where
  terminated := false
  startSched := false
  parseData := .zero
  pDcmCB := pDcmCB
  pc := .locking
  clock := clock
  installed := none
  fired := []

/-! ### The system -/

inductive Action where
  | lock
  | waitReturns (n : WaitResult)
  | startJob (pCronPattern : Option (List Char))
  | stopJob
  | removeJob
  | tick (d : ℕ)
  deriving DecidableEq

def schedStep (s : DCMScheduler) (a : Action) : Option DCMScheduler :=
  match a with
  | .lock =>
    if s.pc = .locking then
      some (if s.terminated then { s with pc := .exited } else s.awaitStart)
    else none
  | .waitReturns n =>
    match s.pc with
    | .condWait => if n = .zero then some s.awaitStart else some { s with pc := .exited }
    | .timedWait currentTime now => s.timedWaitReturns n currentTime now
    | _ => none
  | .startJob pCronPattern => some (dcmSchedStartJob s pCronPattern).2
  | .stopJob => some (dcmSchedStopJob s)
  | .removeJob => some (dcmSchedRemoveJob s)
  | .tick d => some { s with clock := s.clock + d }

def schedSystem (clock : ℤ) (pDcmCB : Bool) : System DCMScheduler Action where
  init := dcmSchedAddJob clock pDcmCB
  next := schedStep

end DcmAgent.Scheduler
