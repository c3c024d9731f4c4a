import Mathlib.Tactic
import Mathlib.Data.Finmap

/-!
# The backup of devices without a hard disk

`backup_execute_hdd_disabled_strategy` moves the logs of `LOG_PATH` to `PreviousLogs`, under the
first of the prefixes ``, `bak1_`, `bak2_`, `bak3_` that has no `messages.txt` yet, or rotates the
prefixes when all of them have one; then it wipes `LOG_PATH`. `Env` is what the environment decides
in one run: the order of the directory entries, which operations fail, and when the power is lost.
Counts of files that only go to the log and to an unused return value are left out.
-/

namespace DcmAgent.Backup

abbrev Name := List Char

/-- A directory entry. The target of a link is outside both directories, and of one link only. -/
inductive Node where
  | regular (content : List Char)
  | symlink (content : List Char)
  | directory
  | other
  | dangling
  deriving DecidableEq, Repr

inductive Where where
  | log
  | prev
  deriving DecidableEq, Repr

abbrev Loc := Where × Name

/-- The entries of both directories, without `.` and `..`. -/
abbrev Disk := Finmap fun _ : Loc => Node

def pathMax : ℕ := 4096

structure BackupConfig where
  logPath : List Char
  prevLogPath : List Char
  deriving DecidableEq

/-- The path of a directory, with a slash at its end. -/
def BackupConfig.slash (config : BackupConfig) : Where → List Char
  | .log => config.logPath ++ ['/']
  | .prev => config.prevLogPath ++ ['/']

/-- The parts of a run: three passes that rotate, the pass that moves the logs, the marker, and
the wiping of `LOG_PATH`. -/
inductive Stage where
  | rotate1
  | rotate2
  | rotate3
  | move
  | touch
  | wipe
  deriving DecidableEq, Repr

/-- The place of a stage in a run. -/
def Stage.index : Stage → ℕ
  | .rotate1 => 0
  | .rotate2 => 1
  | .rotate3 => 2
  | .move => 3
  | .touch => 4
  | .wipe => 5

/-- A copy that fails can leave a destination with other content. -/
inductive CopyOutcome where
  | ok
  | failed (left : Option (List Char))
  deriving DecidableEq, Repr

/-- What the environment decides. Entries that appear while a directory is read may or may not be
among those that `readdir` returns. -/
structure Env where
  readdir : Stage → Where → Disk → List Name
  complete : ∀ stage w d n, (w, n) ∈ d → n ∈ readdir stage w d
  openFails : Stage → Bool
  copy : Stage → Name → CopyOutcome
  removeFails : Stage → Name → Bool
  touchFails : Bool
  /-- The operations of a stage before the power is lost, if it is. -/
  power : Stage → Option ℕ

/-! ### Operations -/

/-- The disk while the operations of a stage are counted. -/
structure Machine where
  disk : Disk
  power : Option ℕ

/-- One operation on the disk, unless the power is lost. -/
def Machine.op (m : Machine) (f : Disk → Disk) : Machine :=
  match m.power with
  | none => { m with disk := f m.disk }
  | some 0 => m
  | some (k + 1) => ⟨f m.disk, some k⟩

/-- The content that is read from an entry. -/
def Node.content? : Node → Option (List Char)
  | .regular c | .symlink c => some c
  | _ => none

/-- The entry after a file has been written through it. -/
def Node.written (old : Option Node) (c : List Char) : Node :=
  match old with
  | some (.symlink _) | some .dangling => .symlink c
  | _ => .regular c

/-- The name of a directory itself, or of its parent. -/
def IsDot (n : Name) : Prop := n = [] ∨ n = ['.'] ∨ n = ['.', '.']

instance (n : Name) : Decidable (IsDot n) := by
  unfold IsDot; infer_instance

/-- A file can be written there. -/
def Writable (d : Disk) (l : Loc) : Prop :=
  ¬IsDot l.2 ∧ d.lookup l ≠ some .directory ∧ d.lookup l ≠ some .other

instance (d : Disk) (l : Loc) : Decidable (Writable d l) := by
  unfold Writable; infer_instance

/-- `copyFiles`: whether it succeeds, and what it leaves. -/
def copyFiles (d : Disk) (outcome : CopyOutcome) (c : List Char) (dest : Loc) : Bool × Disk :=
  if Writable d dest then
    match outcome with
    | .ok => (true, d.insert dest (.written (d.lookup dest) c))
    | .failed none => (false, d)
    | .failed (some left) => (false, d.insert dest (.written (d.lookup dest) left))
  else (false, d)

/-- `stat` succeeds. -/
def filePresentCheck (d : Disk) (l : Loc) : Bool :=
  match d.lookup l with
  | none | some .dangling => false
  | _ => true

/-! ### Moving files -/

def backupLogsLog : Name := "backup_logs.log".toList

def backupLogsLog0 : Name := "backup_logs.log.0".toList

/-- The name of a file without the prefix of its path and of its extension. -/
def remainingPath (source sExt dName : List Char) : List Char :=
  if source ++ sExt <+: source ++ dName then (source ++ dName).drop (source ++ sExt).length
  else dName

inductive BackupOperationType where
  | move
  | copy
  | delete
  deriving DecidableEq, Repr

/-- Copy a file and, to move it, remove it when the copy has succeeded. -/
def performOperation (env : Env) (stage : Stage) (op : BackupOperationType) (m : Machine)
    (src dest : Loc) (c : List Char) : Machine :=
  let result := copyFiles m.disk (env.copy stage src.2) c dest
  let copied := m.op fun _ => result.2
  match op with
  | .move =>
    if result.1 then
      copied.op fun d => if env.removeFails stage src.2 then d else d.erase src
    else copied
  | .copy => copied
  | .delete => m

/-- A file of the source directory with content `c`. -/
def processFile (config : BackupConfig) (env : Env) (stage : Stage) (source dest : Where)
    (op : BackupOperationType) (sExt dExt : List Char) (m : Machine) (dName : Name)
    (c : List Char) : Machine :=
  if sExt <+: dName then
    let remaining := remainingPath (config.slash source) sExt dName
    if pathMax ≤ (config.slash dest ++ dExt ++ remaining).length then m
    else performOperation env stage op m (source, dName) (dest, dExt ++ remaining) c
  else m

/-- One entry of the source directory. -/
def processEntry (config : BackupConfig) (env : Env) (stage : Stage) (source dest : Where)
    (op : BackupOperationType) (sExt dExt : List Char) (m : Machine) (dName : Name) : Machine :=
  if IsDot dName then m
  else if dName = backupLogsLog ∨ dName = backupLogsLog0 then m
  else if pathMax ≤ (config.slash source ++ dName).length then m
  else match (m.disk.lookup (source, dName)).bind Node.content? with
    | none => m
    | some c => processFile config env stage source dest op sExt dExt m dName c

/-- Move the files of a directory that have the prefix `sExt` to the prefix `dExt`. -/
def backupAndRecoverLogs (config : BackupConfig) (env : Env) (stage : Stage)
    (source dest : Where) (op : BackupOperationType) (sExt dExt : List Char) (d : Disk) : Disk :=
  if pathMax ≤ (config.slash source ++ sExt).length then d
  else if env.openFails stage then d
  else ((env.readdir stage source d).foldl
    (processEntry config env stage source dest op sExt dExt) ⟨d, env.power stage⟩).disk

/-! ### The strategy -/

def sysLog : Name := "messages.txt".toList

def bak1 : List Char := "bak1_".toList

def bak2 : List Char := "bak2_".toList

def bak3 : List Char := "bak3_".toList

def lastReboot : Name := "last_reboot".toList

/-- `fopen` for appending, and `fclose`. -/
def touch (d : Disk) (l : Loc) : Disk :=
  match d.lookup l with
  | none => d.insert l (.regular [])
  | some .dangling => d.insert l (.symlink [])
  | _ => d

def touchLastReboot (env : Env) (d : Disk) : Disk :=
  (Machine.op ⟨d, env.power .touch⟩ fun d =>
    if env.touchFails then d else touch d (.prev, lastReboot)).disk

/-- One entry of `LOG_PATH` when it is wiped. -/
def wipeEntry (config : BackupConfig) (env : Env) (m : Machine) (dName : Name) : Machine :=
  if IsDot dName then m
  else if pathMax ≤ (config.slash .log ++ dName).length then m
  else m.op fun d => if env.removeFails .wipe dName then d else d.erase (.log, dName)

def wipeLogPath (config : BackupConfig) (env : Env) (d : Disk) : Disk :=
  if env.openFails .wipe then d
  else ((env.readdir .wipe .log d).foldl (wipeEntry config env) ⟨d, env.power .wipe⟩).disk

/-- What is done with the logs. -/
inductive Level where
  | base
  | bak1
  | bak2
  | bak3
  | full
  deriving DecidableEq, Repr

/-- The first level without the system log. -/
def level (d : Disk) : Level :=
  if ¬filePresentCheck d (.prev, sysLog) then .base
  else if ¬filePresentCheck d (.prev, bak1 ++ sysLog) then .bak1
  else if ¬filePresentCheck d (.prev, bak2 ++ sysLog) then .bak2
  else if ¬filePresentCheck d (.prev, bak3 ++ sysLog) then .bak3
  else .full

/-- The three passes that make room, from the oldest level on. -/
def rotate (config : BackupConfig) (env : Env) (d : Disk) : Disk :=
  let d := backupAndRecoverLogs config env .rotate1 .prev .prev .move bak1 [] d
  let d := backupAndRecoverLogs config env .rotate2 .prev .prev .move bak2 bak1 d
  backupAndRecoverLogs config env .rotate3 .prev .prev .move bak3 bak2 d

/-- Move the logs to a prefix. -/
def moveLogs (config : BackupConfig) (env : Env) (dExt : List Char) (d : Disk) : Disk :=
  backupAndRecoverLogs config env .move .log .prev .move [] dExt d

def backupLogs (config : BackupConfig) (env : Env) (d : Disk) : Disk :=
  match level d with
  | .base => moveLogs config env [] d
  | .bak1 => moveLogs config env bak1 d
  | .bak2 => moveLogs config env bak2 d
  | .bak3 => moveLogs config env bak3 d
  | .full => moveLogs config env bak3 (rotate config env d)

inductive BackupResult where
  | success
  | errorFilesystem
  deriving DecidableEq, Repr

def backupExecuteHddDisabledStrategy (config : BackupConfig) (env : Env) (d : Disk) :
    BackupResult × Disk :=
  if pathMax ≤ config.prevLogPath.length + 19 then (.errorFilesystem, d)
  else if pathMax ≤ config.logPath.length + 2 ∨ pathMax ≤ config.prevLogPath.length + 2 then
    (.errorFilesystem, d)
  else
    let d := backupLogs config env d
    if pathMax ≤ config.prevLogPath.length + 13 then (.errorFilesystem, d)
    else (.success, wipeLogPath config env (touchLastReboot env d))

end DcmAgent.Backup
