import Mathlib.Tactic
import DcmAgent.Library.System

/-!
# The upload lock between threads

The steps that the calls of `uploadstblogs_run` make on what they share: the static lock
descriptor, the static runtime context, and the lock that `flock` keeps for each open file
description. A call zeroes the context before it tries the lock, and `acquire_lock` stores the
new descriptor before it knows whether it gets the lock.
-/

namespace DcmAgent.Upload

open Library

/-- Where a call of `uploadstblogs_run` is; `outside` is before and after it. -/
inductive Pc where
  | outside
  /-- about to zero the context -/
  | entered
  /-- about to open the lock file -/
  | opening
  /-- about to test the descriptor -/
  | opened
  /-- about to call `flock` -/
  | locking
  /-- `flock` failed, about to close the descriptor -/
  | closing
  /-- `flock` failed, about to reset the descriptor -/
  | resetting
  /-- `acquire_lock` failed -/
  | refused
  /-- `acquire_lock` succeeded -/
  | holding
  /-- about to test the descriptor in `release_lock` -/
  | releasing
  | releaseClosing
  | releaseResetting
  deriving DecidableEq, Repr

/-- Between a successful `acquire_lock` and the release of the lock. -/
def Pc.Holds : Pc → Prop
  | .holding | .releasing | .releaseClosing => True
  | _ => False

instance : DecidablePred Pc.Holds := fun pc => by unfold Pc.Holds; split <;> infer_instance

/-- Between the opening of the lock file and the last use of the descriptor. -/
def Pc.UsesLockFd : Pc → Prop
  | .opened | .locking | .closing | .resetting | .holding | .releasing | .releaseClosing
  | .releaseResetting => True
  | _ => False

instance : DecidablePred Pc.UsesLockFd := fun pc => by
  unfold Pc.UsesLockFd; split <;> infer_instance

/-- The shared state. The threads are the elements of `T`, a runtime context is an element of
`C`, and each descriptor of the lock file has its own open file description. -/
structure LockState (T C : Type*) where
  pc : T → Pc
  lockFd : Option ℕ
  ctx : C
  openFds : Finset ℕ
  holder : Option ℕ

/-- A step of a call, with the outcome of its system call. -/
inductive LockEvent (C : Type*) where
  | call (nullParams : Bool)
  | clearContext
  | openLock (fd : Option ℕ)
  | testOpened
  | flock (fails : Bool)
  | closeFailed
  | resetFailed
  | returnFailed
  | writeContext (c : C)
  | enterRelease
  | testRelease
  | closeReleased
  | resetReleased
  deriving DecidableEq, Repr

variable {T C : Type*}

/-- `flock(lock_fd, LOCK_EX | LOCK_NB)` has no reason to fail: the descriptor is open, and no
other open file description has the lock. -/
def LockState.Grants (s : LockState T C) : Prop :=
  ∃ fd ∈ s.openFds, s.lockFd = some fd ∧ (s.holder = none ∨ s.holder = some fd)

instance (s : LockState T C) : Decidable s.Grants := by
  unfold LockState.Grants; infer_instance

/-- `close(lock_fd)`: the lock goes with its descriptor. -/
def LockState.closeLockFd (s : LockState T C) : LockState T C :=
  match s.lockFd with
  | none => s
  | some fd =>
    { s with
      openFds := s.openFds.erase fd
      holder := if s.holder = some fd then none else s.holder }

variable [DecidableEq T]

def LockState.goto (s : LockState T C) (t : T) (pc : Pc) : LockState T C :=
  { s with pc := Function.update s.pc t pc }

variable [Zero C]

/-- One step of the call that thread `t` is in. -/
def lockStep (s : LockState T C) : T × LockEvent C → Option (LockState T C)
  | (t, e) => match s.pc t, e with
    | .outside, .call nullParams => some (s.goto t (if nullParams then .outside else .entered))
    | .entered, .clearContext => some { s.goto t .opening with ctx := 0 }
    | .opening, .openLock none => some { s.goto t .opened with lockFd := none }
    | .opening, .openLock (some fd) =>
      if fd ∈ s.openFds then none
      else some { s.goto t .opened with lockFd := some fd, openFds := insert fd s.openFds }
    | .opened, .testOpened => some (s.goto t (if s.lockFd = none then .refused else .locking))
    | .locking, .flock fails =>
      if s.Grants ∧ ¬fails then some { s.goto t .holding with holder := s.lockFd }
      else some (s.goto t .closing)
    | .closing, .closeFailed => some (s.closeLockFd.goto t .resetting)
    | .resetting, .resetFailed => some { s.goto t .refused with lockFd := none }
    | .refused, .returnFailed => some (s.goto t .outside)
    | .holding, .writeContext c => some { s with ctx := c }
    | .holding, .enterRelease => some (s.goto t .releasing)
    | .releasing, .testRelease =>
      some (s.goto t (if s.lockFd = none then .outside else .releaseClosing))
    | .releaseClosing, .closeReleased => some (s.closeLockFd.goto t .releaseResetting)
    | .releaseResetting, .resetReleased => some { s.goto t .outside with lockFd := none }
    | _, _ => none

/-- All threads outside, the lock free. -/
def lockInit : LockState T C where
  pc := fun _ => .outside
  lockFd := none
  ctx := 0
  openFds := ∅
  holder := none

/-- Any number of threads that call `uploadstblogs_run` again and again. -/
def lockSystem (T C : Type*) [DecidableEq T] [Zero C] :
    System (LockState T C) (T × LockEvent C) where
  init := lockInit
  next := lockStep

end DcmAgent.Upload
