import Mathlib.Tactic
import DcmAgent.Reboot.Packing

/-!
# The workflow of the reboot strategy

`execute_strategy_workflow` runs the phases of a strategy, and its cleanup phase always. The reboot
strategy renames the logs of `PREV_LOG_PATH`, archives them, and moves them to a permanent backup
directory. The path of that directory and the prefix of the names are static variables, which the
next run of the process finds as the last run has left them. Only what happens to `PREV_LOG_PATH`
and to the permanent backups is kept here; what the calls return is given from outside.
-/

namespace DcmAgent.Reboot

open Library
open Archive (maxFilenameLength)

/-! ### Phases -/

structure StrategyHandler (σ : Type) where
  setupPhase : σ → ℤ × σ
  archivePhase : σ → ℤ × σ
  uploadPhase : σ → ℤ × σ
  cleanupPhase : Bool → σ → ℤ × σ

/-- The phases up to the first that fails: its result, and whether the upload has succeeded. -/
def runPhases {σ : Type} (handler : StrategyHandler σ) (s : σ) : ℤ × Bool × σ :=
  let r := handler.setupPhase s
  if r.1 ≠ 0 then (r.1, false, r.2)
  else
    let r := handler.archivePhase r.2
    if r.1 ≠ 0 then (r.1, false, r.2)
    else
      let r := handler.uploadPhase r.2
      (r.1, r.1 = 0, r.2)

/-- What the archive and the upload phase leave alone is as the setup has left it. -/
lemma runPhases_preserves {σ τ : Type} (handler : StrategyHandler σ) (π : σ → τ)
    (harchive : ∀ s, π (handler.archivePhase s).2 = π s)
    (hupload : ∀ s, π (handler.uploadPhase s).2 = π s) (s : σ) :
    π (runPhases handler s).2.2 = π (handler.setupPhase s).2 := by
  simp only [runPhases]
  split_ifs
  · rfl
  · exact harchive _
  · rw [hupload, harchive]

lemma runPhases_of_setup {σ : Type} {handler : StrategyHandler σ} {s : σ}
    (h : (handler.setupPhase s).1 ≠ 0) :
    runPhases handler s = ((handler.setupPhase s).1, false, (handler.setupPhase s).2) := by
  rw [runPhases, if_pos h]

def executeStrategyWorkflow {σ : Type} (cleanupOldArchives : σ → σ) (handler : StrategyHandler σ)
    (s : σ) : ℤ × σ :=
  let (ret, uploadSuccess, s) := runPhases handler (cleanupOldArchives s)
  let (cleanupRet, s) := handler.cleanupPhase uploadSuccess s
  (if cleanupRet ≠ 0 ∧ ret = 0 then cleanupRet else ret, s)

/-- The cleanup phase always runs. -/
lemma executeStrategyWorkflow_snd {σ : Type} (cleanupOldArchives : σ → σ)
    (handler : StrategyHandler σ) (s : σ) :
    (executeStrategyWorkflow cleanupOldArchives handler s).2 =
      (handler.cleanupPhase (runPhases handler (cleanupOldArchives s)).2.1
        (runPhases handler (cleanupOldArchives s)).2.2).2 := rfl

/-! ### The state -/

/-- The static variables of a process. -/
structure Statics where
  permLogPath : List Char
  timestampPrefix : List Char
  deriving DecidableEq, Repr

def Statics.init : Statics := ⟨[], []⟩

/-- `archiveFile` is the one of the session, which is zeroed for every run. -/
structure State where
  statics : Statics
  prev : Option (Directory Node)
  backups : List Char → Directory Node
  archiveFile : List Char

/-- The loops over a directory. -/
inductive Loop where
  | addTimestamp
  | removeTimestamp
  | move
  deriving DecidableEq, Repr

/-- The paths of the context, and what the calls of a run return. Entries that appear while a
directory is read may or may not be among those that `readdir` returns. -/
structure Env extends PackCalls where
  logPath : List Char
  prevLogPath : List Char
  telemetryPath : List Char
  unlinks : List Name → Bool
  backupLogsDone : Bool
  /-- `cleanup_old_log_backups` removes the backup. -/
  expired : List Char → Bool
  permTimestamp : Option (List Char)
  removesOldTar : Bool
  /-- What is left of the copy of the log of `backup_logs`, if there is one. -/
  backupLogsLog : Option Node
  timestamp : Option (List Char)
  readdir : Loop → Directory Node → Option (List Name)
  complete : ∀ loop d entries n, readdir loop d = some entries → n ∈ d.names → n ∈ entries
  renames : Loop → Name → Bool
  /-- `LOG_PATH` in the archive phase. -/
  logs : Option (Directory Node)
  dcmFlag : ℤ
  uploadOnReboot : ℤ
  isScheduledReboot : Bool
  disableUnscheduledUpload : Bool
  archiveExists : Bool
  archiveSize : ℤ
  /-- The upload cycle ends with success. -/
  uploads : Bool
  removesArchive : Bool
  createsDirectory : Bool
  /-- `emptyFolder` removes the entry. -/
  clears : Name → Bool

/-! ### Stale archives -/

/-- A name of at least five characters that ends with `.tgz`. -/
def isOldArchive (n : Name) : Bool := 5 ≤ n.length ∧ ".tgz".toList <:+ n

/-- The part of `cleanup_old_archives` below a directory. -/
def cleanupOldArchives (unlinks : List Name → Bool) : List Name → List (Name × Node) →
    List (Name × Node)
  | _, [] => []
  | dirs, (n, .directory entries) :: rest =>
    (n, .directory (cleanupOldArchives unlinks (dirs ++ [n]) entries)) ::
      cleanupOldArchives unlinks dirs rest
  | dirs, (n, .regular content) :: rest =>
    if isOldArchive n ∧ unlinks (dirs ++ [n]) then cleanupOldArchives unlinks dirs rest
    else (n, .regular content) :: cleanupOldArchives unlinks dirs rest
  | dirs, (n, .other) :: rest => (n, .other) :: cleanupOldArchives unlinks dirs rest

/-! ### Timestamps -/

/-- The entry is renamed unless it is passed over. -/
def renameEntry (renames : Name → Bool) (newName : Name → Option Name) (d : Directory Node)
    (n : Name) : Directory Node :=
  match newName n with
  | none => d
  | some m => if renames n then d.rename n m else d

def renameEach (env : Env) (loop : Loop) (newName : Name → Option Name) (d : Directory Node) :
    Directory Node :=
  match env.readdir loop d with
  | none => d
  | some entries => entries.foldl (renameEntry (env.renames loop) newName) d

/-- The name that `add_timestamp_to_files` gives an entry of a directory. -/
def stampedName (dir timestamp : List Char) (n : Name) : Option Name :=
  if n.head? = some '.' ∨ timestamp <+: n then none
  else if "bak1_".toList <+: n ∨ "bak2_".toList <+: n ∨ "bak3_".toList <+: n then none
  else if Fits dir n ∧ Fits dir (timestamp ++ n) then some (timestamp ++ n)
  else none

/-- The prefix is stored when the directory exists and the time can be told. -/
def storeTimestamp (dirExists : Bool) (timestamp : Option (List Char)) (statics : Statics) :
    Statics :=
  match timestamp with
  | none => statics
  | some timestamp =>
    if dirExists then { statics with timestampPrefix := timestamp } else statics

@[simp] lemma permLogPath_storeTimestamp (dirExists : Bool) (timestamp : Option (List Char))
    (statics : Statics) :
    (storeTimestamp dirExists timestamp statics).permLogPath = statics.permLogPath := by
  cases timestamp <;> cases dirExists <;> rfl

/-- The prefix is stored before any name is changed. -/
def addTimestampToFiles (env : Env) (statics : Statics) (d : Directory Node) :
    Statics × Directory Node :=
  (storeTimestamp true env.timestamp statics,
    match env.timestamp with
    | none => d
    | some timestamp => renameEach env .addTimestamp (stampedName env.prevLogPath timestamp) d)

/-- Where a name is cut: behind the stored prefix, or behind what looks like a timestamp. -/
def cutPos (timestampPrefix n : Name) : Option ℕ :=
  if 0 < timestampPrefix.length ∧ timestampPrefix.length < n.length then
    if timestampPrefix <+: n then some timestampPrefix.length else none
  else if 19 < n.length then
    if n[2]? = some '-' ∧ n[5]? = some '-' ∧ n[8]? = some '-' ∧ n[11]? = some '-' then
      match Cron.strstr "AM-".toList n, Cron.strstr "PM-".toList n with
      | some am, _ => some (am + 3)
      | none, some pm => some (pm + 3)
      | none, none => none
    else none
  else none

/-- The name that `remove_timestamp_from_files` gives an entry. -/
def originalName (env : Env) (timestampPrefix n : Name) : Option Name :=
  if n.head? = some '.' then none
  else
    match cutPos timestampPrefix n with
    | none => none
    | some cut =>
      if 0 < cut ∧ cut < n.length ∧ Fits env.prevLogPath n ∧ Fits env.prevLogPath (n.drop cut) then
        some (n.drop cut)
      else none

def removeTimestampFromFiles (env : Env) (statics : Statics) (d : Directory Node) :
    Directory Node :=
  renameEach env .removeTimestamp (originalName env statics.timestampPrefix) d

/-! ### Moving -/

/-- Both paths fit, and `rename` succeeds. -/
def Moves (env : Env) (permLogPath : List Char) (n : Name) : Prop :=
  Fits env.prevLogPath n ∧ Fits permLogPath n ∧ env.renames .move n

instance (env : Env) (permLogPath : List Char) (n : Name) :
    Decidable (Moves env permLogPath n) := by
  unfold Moves; infer_instance

def moveEntry (env : Env) (permLogPath : List Char) (dirs : Directory Node × Directory Node)
    (n : Name) : Directory Node × Directory Node :=
  match dirs.1.lookup n with
  | none => dirs
  | some x => if Moves env permLogPath n then (dirs.1.remove n, dirs.2.put n x) else dirs

/-- The directory and the backup afterwards. -/
def moveDirectoryContents (env : Env) (permLogPath : List Char) (d backup : Directory Node) :
    Directory Node × Directory Node :=
  match env.readdir .move d with
  | none => (d, backup)
  | some entries => entries.foldl (moveEntry env permLogPath) (d, backup)

def cleanDirectory (env : Env) (d : Directory Node) : Directory Node :=
  d.filter fun p => ¬env.clears p.1

/-- An empty path is refused. -/
def createDirectory (env : Env) (path : List Char) : Bool := path ≠ [] ∧ env.createsDirectory

/-! ### The reboot strategy -/

/-- Some entry ends with `.txt` or `.log`. -/
def hasLogFiles (d : Directory Node) : Bool :=
  d.any fun p => 4 < p.1.length ∧ (".txt".toList <:+ p.1 ∨ ".log".toList <:+ p.1)

/-- Stale archives apart, the regular files are all there. -/
lemma regular_mem_cleanupOldArchives {unlinks : List Name → Bool} {dirs : List Name}
    {d : List (Name × Node)} {n : Name} {content : List Char} :
    (n, Node.regular content) ∈ cleanupOldArchives unlinks dirs d ↔
      (n, Node.regular content) ∈ d ∧ ¬(isOldArchive n ∧ unlinks (dirs ++ [n])) := by
  induction d with
  | nil => simp [cleanupOldArchives]
  | cons p d ih =>
    obtain ⟨m, x⟩ := p
    cases x with
    | regular text =>
      rw [cleanupOldArchives]
      by_cases h : isOldArchive m ∧ unlinks (dirs ++ [m])
      · rw [if_pos h, ih]
        grind
      · rw [if_neg h, List.mem_cons, ih]
        grind
    | directory entries => simp [cleanupOldArchives, ih]
    | other => simp [cleanupOldArchives, ih]

/-- A name has only one ending. -/
lemma hasLogFiles_cleanupOldArchives (unlinks : List Name → Bool) (dirs : List Name)
    (d : List (Name × Node)) : hasLogFiles (cleanupOldArchives unlinks dirs d) = hasLogFiles d := by
  induction d with
  | nil => simp [cleanupOldArchives]
  | cons p d ih =>
    obtain ⟨m, x⟩ := p
    simp only [hasLogFiles, List.any_cons] at ih ⊢
    cases x with
    | regular text =>
      rw [cleanupOldArchives]
      by_cases h : isOldArchive m ∧ unlinks (dirs ++ [m])
      · rw [if_pos h, ih]
        have htgz : ".tgz".toList <:+ m := (of_decide_eq_true h.1).2
        have hother : ∀ ending : List Char, ending.length = 4 → ending ≠ ['.', 't', 'g', 'z'] →
            ¬ending <:+ m := fun ending hlen hne h =>
          hne ((List.suffix_of_suffix_length_le h htgz (by simp [hlen])).eq_of_length
            (by simp [hlen]))
        have htxt : ¬".txt".toList <:+ m := hother _ (by simp) (by simp)
        have hlog : ¬".log".toList <:+ m := hother _ (by simp) (by simp)
        rw [decide_eq_false (fun h => h.2.elim htxt hlog), Bool.false_or]
      · rw [if_neg h, List.any_cons, ih]
    | directory entries => rw [cleanupOldArchives, List.any_cons, ih]
    | other => rw [cleanupOldArchives, List.any_cons, ih]

/-- The old archive is removed, and the log of `backup_logs` is added. -/
def refreshPrev (env : Env) (d : Directory Node) : Directory Node :=
  let d := if env.removesOldTar then d.remove "logs.tar.gz".toList else d
  match env.backupLogsLog with
  | none => d
  | some x => d.put "backup_logs.log.0".toList x

def rebootSetup (env : Env) (s : State) : ℤ × State :=
  if ¬env.backupLogsDone then (-1, s)
  else
    match s.prev with
    | none => (-1, s)
    | some d =>
      if ¬hasLogFiles d then (-1, s)
      else
        let s := { s with backups := fun p => if env.expired p then [] else s.backups p }
        match env.permTimestamp with
        | none => (-1, s)
        | some timestamp =>
          if ¬Fits env.logPath timestamp then (-1, s)
          else
            let permLogPath := pathOf env.logPath timestamp
            let s := { s with statics := { s.statics with permLogPath := permLogPath } }
            if ¬Fits env.telemetryPath "lastlog_path".toList then (-1, s)
            else if ¬Fits env.prevLogPath "logs.tar.gz".toList then (-1, s)
            else
              let (statics, d) := addTimestampToFiles env s.statics (refreshPrev env d)
              (0, { s with statics := statics, prev := some d })

def rebootArchive (env : Env) (s : State) : ℤ × State :=
  match s.prev with
  | none => (-1, s)
  | some d =>
    let d := collectPcapLogs env.toPackCalls env.logs d
    let (ret, d, archiveFile) := createArchive env.toPackCalls env.prevLogPath s.archiveFile d
    (ret, { s with prev := some d, archiveFile := archiveFile })

def shouldUpload (env : Env) : Bool :=
  env.dcmFlag = 0 ∨ env.uploadOnReboot = 1 ∨
    (¬env.isScheduledReboot ∧ ¬env.disableUnscheduledUpload)

/-- The path of the archive goes to the session, as much of it as the array takes. The DRI logs
have a session of their own, and their directory is not one of those kept here. -/
def rebootUpload (env : Env) (s : State) : ℤ × State :=
  let archivePath := pathOf env.prevLogPath s.archiveFile
  if ¬Fits env.prevLogPath s.archiveFile then (-1, s)
  else if ¬shouldUpload env then
    (0, { s with archiveFile := archivePath.take (maxFilenameLength - 1) })
  else if ¬env.archiveExists ∨ env.archiveSize ≤ 0 then (-1, s)
  else
    (if env.uploads then 0 else -1,
      { s with archiveFile := archivePath.take (maxFilenameLength - 1) })

/-- The archive of the session is removed when its path leads to the directory. -/
def removeArchive (env : Env) (archiveFile : List Char) (d : Directory Node) : Directory Node :=
  if env.prevLogPath ++ ['/'] <+: archiveFile ∧ env.removesArchive then
    d.remove (archiveFile.drop (env.prevLogPath.length + 1))
  else d

/-- The logs get their names back and are moved away, then the directory is wiped. -/
def rebootCleanup (env : Env) (_uploadSuccess : Bool) (s : State) : ℤ × State :=
  let prev := s.prev.map fun d =>
    removeTimestampFromFiles env s.statics (removeArchive env s.archiveFile d)
  let permLogPath := s.statics.permLogPath
  if ¬createDirectory env permLogPath then (-1, { s with prev := prev })
  else
    match prev with
    | none => (0, { s with prev := none })
    | some d =>
      let (d, backup) := moveDirectoryContents env permLogPath d (s.backups permLogPath)
      (0, { s with
        prev := some (cleanDirectory env d)
        backups := Function.update s.backups permLogPath backup })

@[simp] lemma statics_rebootArchive (env : Env) (s : State) :
    (rebootArchive env s).2.statics = s.statics := by
  rw [rebootArchive]
  cases s.prev <;> rfl

@[simp] lemma backups_rebootArchive (env : Env) (s : State) :
    (rebootArchive env s).2.backups = s.backups := by
  rw [rebootArchive]
  cases s.prev <;> rfl

/-- The upload phase only touches the session. -/
lemma rebootUpload_snd (env : Env) (s : State) : (rebootUpload env s).2 = s ∨
    (rebootUpload env s).2 = { s with
      archiveFile := (pathOf env.prevLogPath s.archiveFile).take (maxFilenameLength - 1) } := by
  rw [rebootUpload]
  by_cases hfits : ¬Fits env.prevLogPath s.archiveFile
  · rw [if_pos hfits]
    exact Or.inl rfl
  rw [if_neg hfits]
  by_cases hupload : ¬shouldUpload env
  · rw [if_pos hupload]
    exact Or.inr rfl
  rw [if_neg hupload]
  by_cases hmissing : ¬env.archiveExists ∨ env.archiveSize ≤ 0
  · rw [if_pos hmissing]
    exact Or.inl rfl
  · rw [if_neg hmissing]
    exact Or.inr rfl

@[simp] lemma statics_rebootUpload (env : Env) (s : State) :
    (rebootUpload env s).2.statics = s.statics := by
  rcases rebootUpload_snd env s with h | h <;> rw [h]

@[simp] lemma backups_rebootUpload (env : Env) (s : State) :
    (rebootUpload env s).2.backups = s.backups := by
  rcases rebootUpload_snd env s with h | h <;> rw [h]

def rebootStrategyHandler (env : Env) : StrategyHandler State where
  setupPhase := rebootSetup env
  archivePhase := rebootArchive env
  uploadPhase := rebootUpload env
  cleanupPhase := rebootCleanup env

def State.cleanupOldArchives (env : Env) (s : State) : State :=
  { s with prev := s.prev.map (Reboot.cleanupOldArchives env.unlinks []) }

/-- A run of the reboot strategy in a process with the given static variables. -/
def rebootWorkflow (env : Env) (statics : Statics) (prev : Option (Directory Node))
    (backups : List Char → Directory Node) : ℤ × State :=
  executeStrategyWorkflow (State.cleanupOldArchives env) (rebootStrategyHandler env)
    ⟨statics, prev, backups, []⟩

end DcmAgent.Reboot
