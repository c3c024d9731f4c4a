import Mathlib.Tactic
import DcmAgent.Backup.Engine
import DcmAgent.Library.Calendar
import DcmAgent.Library.Directory

/-!
# The backup of devices with a hard disk

`backup_execute_hdd_enabled_strategy` moves the logs to `PreviousLogs` itself when that has no
`messages.txt`, and to a new directory with a timestamp below it otherwise. No operation on a file
or a directory fails, and neither do `gmtime_r` and `strftime`.
-/

namespace DcmAgent.Backup.Enabled

open Library

abbrev Content := List Char

/-- An entry of `LOG_PATH`. Only a regular file can be copied. -/
inductive Entry where
  | file (content : Content)
  | other
  deriving DecidableEq, Repr

/-- `PreviousLogs`: the files in it, and the files in its directories with timestamps. -/
structure Store where
  files : Directory Content
  dirs : Name → Option (Directory Content)

/-- What a run finds: the time, and `LOG_PATH` in the order of `readdir`. -/
structure Boot where
  time : ℤ
  logs : Directory Entry

/-! ### Timestamps -/

def digit (n : ℤ) : Char := Nat.digitChar n.toNat

def twoDigits (n : ℤ) : List Char := [digit (n / 10), digit (n % 10)]

/-- The hour of `%I`. -/
def hour12 (hour : ℤ) : ℤ := if hour % 12 = 0 then 12 else hour % 12

/-- `%m-%d-%y-%I-%M-%S%p`. -/
def timestamp (t : ℤ) : List Char :=
  let tm := gmtime t
  twoDigits (tm.mon + 1) ++ '-' :: twoDigits tm.mday ++ '-' :: twoDigits (tm.year % 100) ++
    '-' :: twoDigits (hour12 tm.hour) ++ '-' :: twoDigits tm.min ++ '-' :: twoDigits tm.sec ++
    [if tm.hour < 12 then 'A' else 'P', 'M']

/-! ### `move_log_files_by_pattern` -/

/-- The name is one of a log, and the program does not write to it. -/
def IsLog (n : Name) : Prop :=
  ¬IsDot n ∧ ¬"backup_logs.log".toList <+: n ∧
    (n = "bootlog".toList ∨ ".txt".toList <:+: n ∨ ".log".toList <:+: n)

instance (n : Name) : Decidable (IsLog n) := by
  unfold IsLog; infer_instance

/-- A log with paths that fit. -/
def Movable (sourceDir destDir : List Char) (n : Name) : Prop :=
  IsLog n ∧ (sourceDir ++ '/' :: n).length < pathMax ∧ (destDir ++ '/' :: n).length < pathMax

instance (sourceDir destDir : List Char) (n : Name) : Decidable (Movable sourceDir destDir n) := by
  unfold Movable; infer_instance

/-- One entry. A file of the same name is replaced. -/
def moveEntry (sourceDir destDir : List Char) (dirs : Directory Entry × Directory Content)
    (n : Name) : Directory Entry × Directory Content :=
  match dirs.1.lookup n with
  | some (.file content) =>
    if Movable sourceDir destDir n then (dirs.1.remove n, dirs.2.put n content) else dirs
  | _ => dirs

def moveLogFilesByPattern (sourceDir destDir : List Char) (logs : Directory Entry)
    (dest : Directory Content) : Directory Entry × Directory Content :=
  logs.names.foldl (moveEntry sourceDir destDir) (logs, dest)

/-! ### The strategy -/

/-- `fopen` for appending, and `fclose`. -/
def touch (d : Directory Content) (n : Name) : Directory Content :=
  if n ∈ d.names then d else d.put n []

def logbackup : List Char := "logbackup-".toList

/-- The name of the directory of a run. -/
def directoryName (t : ℤ) : Name := logbackup ++ timestamp t

/-- The value returned, `LOG_PATH` and `PreviousLogs`. -/
def backupExecuteHddEnabledStrategy (config : BackupConfig) (boot : Boot) (store : Store) :
    BackupResult × Directory Entry × Store :=
  if pathMax ≤ config.prevLogPath.length + 1 + sysLog.length then
    (.errorFilesystem, boot.logs, store)
  else if sysLog ∉ store.files.names then
    let (logs, files) := moveLogFilesByPattern config.logPath config.prevLogPath boot.logs
      store.files
    if pathMax ≤ config.prevLogPath.length + 13 then
      (.errorFilesystem, logs, { store with files := files })
    else (.success, logs, { store with files := touch files lastReboot })
  else
    let store :=
      if pathMax ≤ config.prevLogPath.length + 1 + lastReboot.length then store
      else { store with files := store.files.remove lastReboot }
    let name := directoryName boot.time
    let timestampedPath := config.prevLogPath ++ '/' :: name
    if pathMax ≤ timestampedPath.length then (.errorFilesystem, boot.logs, store)
    else
      -- a directory that exists is kept as it is
      let (logs, files) := moveLogFilesByPattern config.logPath timestampedPath boot.logs
        ((store.dirs name).getD [])
      if pathMax ≤ timestampedPath.length + 13 then
        (.errorFilesystem, logs,
          { store with dirs := Function.update store.dirs name (some files) })
      else
        (.success, logs, { store with
          dirs := Function.update store.dirs name (some (touch files lastReboot)) })

/-- The store after some runs. -/
def run (config : BackupConfig) (store : Store) (boots : List Boot) : Store :=
  boots.foldl (fun store boot => (backupExecuteHddEnabledStrategy config boot store).2.2) store

end DcmAgent.Backup.Enabled
