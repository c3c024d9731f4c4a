import Mathlib.Tactic
import DcmAgent.Library.CString
import DcmAgent.Library.System

/-!
# The PID file

A daemon that starts reads the PID file, looks up what it has read under `/proc`, and writes its own
process id; one that stops removes the file first and exits later. Each access to the file system is
a step of its own.
-/

namespace DcmAgent.Daemon

open Library

/-- The kernel hands out process ids up to `PID_MAX_LIMIT`. -/
abbrev Pid := Fin (2 ^ 22 + 1)

/-- What `fprintf` writes with `%d`. -/
def pidText (p : Pid) : List Char := Nat.toDigits 10 p

/-- The names below `/proc`: a name belongs to at most one process and is there as long as the
process is alive, or it is one of the `other` names, which are always there. -/
structure ProcFs where
  owner : List Char → Option Pid
  other : List Char → Bool
  owner_pidText : ∀ p, owner (pidText p) = some p
  other_pidText : ∀ p, other (pidText p) = false

/-- Where a daemon is: in `dcmUtilsCheckDaemonStatus`, in its work, or in `dcmDaemonMainUnInit`. -/
inductive PidPc where
  | start
  | reading (inode : ℕ)
  | checking (text : List Char)
  | opening
  | writing (inode : ℕ)
  | running
  | refused
  | closing
  | removing
  | exiting
  deriving DecidableEq, Repr

inductive Proc where
  | other
  | daemon (pc : PidPc)
  deriving DecidableEq, Repr

structure PidState where
  procs : Pid → Option Proc
  /-- The file that the name of the PID file is linked to. -/
  link : Option ℕ
  contents : ℕ → List Char
  fresh : ℕ

/-- A step of a process. Without a character in the file the array for the text is not set, and
holds `garbage`. -/
inductive PidEvent where
  | spawn (daemon : Bool)
  | openRead
  | read (garbage : List Char)
  | check
  | openWrite (ok : Bool)
  | write
  | stop
  | findFile
  | remove
  | die
  deriving DecidableEq, Repr

/-- The name is there. -/
def ProcFs.present (fs : ProcFs) (s : PidState) (text : List Char) : Bool :=
  fs.other text || match fs.owner text with
    | none => false
    | some p => (s.procs p).isSome

def PidState.setProc (s : PidState) (p : Pid) (proc : Option Proc) : PidState :=
  { s with procs := Function.update s.procs p proc }

def PidState.goto (s : PidState) (p : Pid) (pc : PidPc) : PidState :=
  s.setProc p (some (.daemon pc))

/-- What is in the file once the text is written to its begin. -/
def overwrite (content text : List Char) : List Char := text ++ content.drop text.length

/-- `fopen` with "w": the file is emptied, or a new one is made. -/
def PidState.truncate (s : PidState) (p : Pid) : PidState :=
  match s.link with
  | some i => { s.goto p (.writing i) with contents := Function.update s.contents i [] }
  | none =>
    { s.goto p (.writing s.fresh) with
      link := some s.fresh
      contents := Function.update s.contents s.fresh []
      fresh := s.fresh + 1 }

def pidStep (fs : ProcFs) (s : PidState) : Pid × PidEvent → Option PidState
  | (p, e) => match s.procs p, e with
    | none, .spawn daemon => some (s.setProc p (some (if daemon then .daemon .start else .other)))
    | some (.daemon .start), .openRead =>
      some (s.goto p (match s.link with
        | none => .opening
        | some i => .reading i))
    | some (.daemon (.reading i)), .read garbage =>
      some (s.goto p (.checking ((fgets 32 (s.contents i)).getD garbage)))
    | some (.daemon (.checking text)), .check =>
      some (s.goto p (if fs.present s text then .refused else .opening))
    | some (.daemon .opening), .openWrite ok =>
      some (if ok then s.truncate p else s.goto p .refused)
    | some (.daemon (.writing i)), .write =>
      some { s.goto p .running with
        contents := Function.update s.contents i (overwrite (s.contents i) (pidText p)) }
    | some (.daemon .running), .stop => some (s.goto p .closing)
    | some (.daemon .closing), .findFile =>
      some (s.goto p (if s.link = none then .exiting else .removing))
    | some (.daemon .removing), .remove => some { s.goto p .exiting with link := none }
    | some _, .die => some (s.setProc p none)
    | _, _ => none

/-- Other programs are running, and a file may be there. -/
def pidInit (others : Pid → Bool) (file : Option (List Char)) : PidState where
  procs := fun p => if others p then some .other else none
  link := file.map fun _ => 0
  contents := fun _ => file.getD []
  fresh := 1

def pidSystem (fs : ProcFs) (others : Pid → Bool) (file : Option (List Char)) :
    System PidState (Pid × PidEvent) where
  init := pidInit others file
  next := pidStep fs

/-! ### Texts -/

lemma fgets_pidText (p : Pid) : fgets 32 (pidText p) = some (pidText p) := by
  have hne : pidText p ≠ [] := Nat.toDigits_ne_nil
  have hlen : (pidText p).length ≤ 7 := by
    refine Nat.toDigits_length 10 p 7 (by decide) (lt_of_le_of_lt (Nat.lt_succ_iff.mp p.isLt) ?_)
    norm_num
  have hline : ∀ c ∈ pidText p, c ≠ '\n' := by
    intro c hc heq
    rw [heq] at hc
    exact absurd (Nat.isDigit_of_mem_toDigits (by decide) (by decide) hc) (by decide)
  have htake : (pidText p).takeWhile (· ≠ '\n') = pidText p :=
    List.takeWhile_eq_self_iff.mpr fun c hc => decide_eq_true (hline c hc)
  have hdrop : (pidText p).dropWhile (· ≠ '\n') = [] :=
    List.dropWhile_eq_nil_iff.mpr fun c hc => decide_eq_true (hline c hc)
  rw [fgets, if_neg hne, htake, hdrop, List.take_nil, List.append_nil,
    List.take_of_length_le (by omega)]

end DcmAgent.Daemon
