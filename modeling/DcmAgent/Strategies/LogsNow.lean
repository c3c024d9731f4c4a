import Mathlib.Tactic
import DcmAgent.Reboot.UploadLogsNow
import DcmAgent.Strategies.Collect

/-!
# The workflow of `uploadlogsnow`

All entries of `LOG_PATH` but three are copied to `DCM_LOG_PATH`, which gets timestamps, is
archived, uploaded, and removed. A file tells the status of the last run.
-/

namespace DcmAgent.Strategies

open Library
open Reboot (Name Fits CopyCalls plainCopy isDirectory)
open Reboot.UploadLogsNow (Calls addTimestampToFilesUploadlogsnow)

namespace LogsNow

inductive Status where
  | triggered
  | noFiles
  | inProgress
  | failed
  | complete
  deriving DecidableEq, Repr

/-- The message of a status, in front of the time. -/
def Status.message : Status → List Char
  | .triggered => "Triggered".toList
  | .noFiles => "No files to upload".toList
  | .inProgress => "In progress".toList
  | .failed => "Failed".toList
  | .complete => "Complete".toList

/-- `DCM_LOG_PATH`, the stored prefix, and the text of the status file. `packed` is the directory
that has been archived, `sent` the one whose archive has been handed to the upload. -/
structure State where
  dcm : Option (Directory Node)
  timestampPrefix : List Char
  statusFile : List Char
  packed : Option (Directory Node)
  sent : Option (Directory Node)

/-- The paths of the context, and what the calls of a run return. -/
structure Env where
  logPath : List Char
  dcmLogPath : List Char
  /-- The status file can be opened. -/
  opensStatus : Status → Bool
  /-- The time behind a message, if it can be told. -/
  time : Status → Option (List Char)
  createsDcm : Bool
  readdir : Directory Node → Option (List (Name × Node))
  readdir_perm : ∀ d entries, readdir d = some entries → entries.Perm d
  copy : CopyCalls
  stamp : Calls
  archiveName : Option Name
  archive : Directory Node → ℤ × Option Node
  archiveExists : Bool
  uploads : Bool
  remove : RemoveCalls

variable (env : Env)

def statusText (status : Status) : List Char :=
  match env.time status with
  | none => status.message ++ ['\n']
  | some t => status.message ++ ' ' :: t ++ ['\n']

def writeUploadStatus (status : Status) (s : State) : State :=
  if env.opensStatus status then { s with statusFile := statusText env status } else s

def dcmTempDir : List Char := "/tmp/DCM".toList

def dcmPath : List Char := if env.dcmLogPath ≠ [] then env.dcmLogPath else dcmTempDir

/-- The entries that are copied; a directory is handed to `copyFiles` like a file. -/
def selects (n : Name) (_ : Node) : Bool :=
  ¬shouldExcludeFile n ∧ Fits env.logPath n ∧ Fits (dcmPath env) n

/-- The number of files, and the destination. -/
def copyFilesToDcmPath (logs : Option (Directory Node)) (dest : Directory Node) :
    ℤ × Directory Node :=
  match logs.bind env.readdir with
  | none => (-1, dest)
  | some entries =>
    let r := entries.foldl (copyEntry env.copy (selects env)) (0, dest)
    (r.1, r.2)

/-- The directory with timestamps, and the stored prefix. -/
def stamped (timestampPrefix : List Char) (d : Directory Node) :
    List Char × Option (Directory Node) :=
  (addTimestampToFilesUploadlogsnow env.stamp (some (dcmPath env)) timestampPrefix (some d)).2

/-- A phase that fails says so in the status file. -/
def fail (s : State) : ℤ × State := (-1, writeUploadStatus env .failed s)

/-- From the archive to the end of the upload. -/
def archiveAndUpload (d : Directory Node) (s : State) : ℤ × State :=
  match env.archiveName with
  | none => fail env { s with dcm := some d }
  | some name =>
    let r := env.archive d
    let s := { s with dcm := some (d.set name r.2), packed := some d }
    if r.1 ≠ 0 then fail env s
    else if ¬(Fits (dcmPath env) name ∧ env.archiveExists) then fail env s
    else
      let s := { s with sent := some d }
      if env.uploads then (0, writeUploadStatus env .complete s) else fail env s

/-- The run up to its label `cleanup`. -/
def copyAndUpload (logs : Option (Directory Node)) (d : Directory Node) (s : State) : ℤ × State :=
  let r := copyFilesToDcmPath env logs d
  let s := { s with dcm := some r.2 }
  if r.1 < 0 then fail env s
  else if r.1 = 0 then (0, writeUploadStatus env .noFiles s)
  else
    let (timestampPrefix, d) := stamped env s.timestampPrefix r.2
    archiveAndUpload env (d.getD r.2)
      (writeUploadStatus env .inProgress { s with timestampPrefix := timestampPrefix })

/-- Whatever has happened, the directory is removed, unless it could not be created. -/
def executeUploadlogsnowWorkflow (logs : Option (Directory Node)) (s : State) : ℤ × State :=
  let s := writeUploadStatus env .triggered s
  match createDirectory env.createsDcm s.dcm with
  | none => fail env s
  | some d =>
    let r := copyAndUpload env logs d s
    (r.1, { r.2 with dcm := (removeDirectory env.remove r.2.dcm).2 })

/-- A run that finds the directory, the prefix and the status file. -/
def State.start (dcm : Option (Directory Node)) (timestampPrefix statusFile : List Char) : State :=
  ⟨dcm, timestampPrefix, statusFile, none, none⟩

/-! ### How a run ends -/

/-- What the result, the status file and the upload say of one another. -/
inductive Ends (env : Env) : ℤ × State → Prop where
  | complete (s) (d) (hsent : s.sent = some d) (huploads : env.uploads = true)
      (hfile : s.statusFile = statusText env .complete) : Ends env (0, s)
  | noFiles (s) (hsent : s.sent = none) (hfile : s.statusFile = statusText env .noFiles) :
      Ends env (0, s)
  | failed (s) (hsent : s.sent ≠ none → env.uploads = false)
      (hfile : s.statusFile = statusText env .failed) : Ends env (-1, s)

variable {env} {s : State} {logs dcm : Option (Directory Node)} {d : Directory Node} {n : Name}

lemma Ends.fail (hopens : ∀ status, env.opensStatus status = true)
    (h : s.sent ≠ none → env.uploads = false) : Ends env (fail env s) := by
  rw [LogsNow.fail, writeUploadStatus, if_pos (hopens _)]
  exact .failed _ h rfl

lemma sent_writeUploadStatus (env : Env) (status : Status) (s : State) :
    (writeUploadStatus env status s).sent = s.sent := by
  rw [writeUploadStatus]
  split_ifs <;> rfl

lemma ends_archiveAndUpload (hopens : ∀ status, env.opensStatus status = true)
    (hsent : s.sent = none) : Ends env (archiveAndUpload env d s) := by
  have hnone : ∀ s : State, s.sent = none → s.sent ≠ none → env.uploads = false :=
    fun s h hne => absurd h hne
  rw [archiveAndUpload]
  cases env.archiveName with
  | none => exact .fail hopens (hnone _ hsent)
  | some name =>
    dsimp only
    by_cases harchive : (env.archive d).1 ≠ 0
    · rw [if_pos harchive]
      exact .fail hopens (hnone _ hsent)
    rw [if_neg harchive]
    by_cases hready : ¬(Fits (dcmPath env) name ∧ env.archiveExists)
    · rw [if_pos hready]
      exact .fail hopens (hnone _ hsent)
    rw [if_neg hready]
    by_cases huploads : env.uploads
    · rw [if_pos huploads, writeUploadStatus, if_pos (hopens _)]
      exact .complete _ d rfl huploads rfl
    · rw [if_neg huploads]
      exact .fail hopens fun _ => by simpa using huploads

lemma ends_copyAndUpload (hopens : ∀ status, env.opensStatus status = true)
    (hsent : s.sent = none) : Ends env (copyAndUpload env logs d s) := by
  rw [copyAndUpload]
  dsimp only
  by_cases hfailed : (copyFilesToDcmPath env logs d).1 < 0
  · rw [if_pos hfailed]
    exact .fail hopens fun h => absurd hsent h
  rw [if_neg hfailed]
  by_cases hno : (copyFilesToDcmPath env logs d).1 = 0
  · rw [if_pos hno, writeUploadStatus, if_pos (hopens _)]
    exact .noFiles _ hsent rfl
  rw [if_neg hno]
  apply ends_archiveAndUpload hopens
  rw [sent_writeUploadStatus]
  exact hsent

lemma ends_executeUploadlogsnowWorkflow (hopens : ∀ status, env.opensStatus status = true)
    (hsent : s.sent = none) : Ends env (executeUploadlogsnowWorkflow env logs s) := by
  rw [executeUploadlogsnowWorkflow]
  have hsame := (sent_writeUploadStatus env .triggered s).trans hsent
  cases createDirectory env.createsDcm (writeUploadStatus env .triggered s).dcm with
  | none => exact .fail hopens fun h => absurd hsame h
  | some d =>
    dsimp only
    have hends : Ends env (copyAndUpload env logs d (writeUploadStatus env .triggered s)) :=
      ends_copyAndUpload hopens hsame
    generalize copyAndUpload env logs d (writeUploadStatus env .triggered s) = r at hends ⊢
    cases hends with
    | complete s' d' hsent huploads hfile => exact .complete _ d' hsent huploads hfile
    | noFiles s' hsent hfile => exact .noFiles _ hsent hfile
    | failed s' hsent hfile => exact .failed _ hsent hfile

/-! ### What is uploaded -/

/-- What is handed to the upload is archived before. -/
lemma sent_archiveAndUpload (hsent : s.sent = none) {sent : Directory Node}
    (h : (archiveAndUpload env d s).2.sent = some sent) : sent = d := by
  rw [archiveAndUpload] at h
  have hfail : ∀ s : State, s.sent = none → (fail env s).2.sent ≠ some sent := by
    intro s hs
    rw [LogsNow.fail, sent_writeUploadStatus, hs]
    simp
  cases hname : env.archiveName with
  | none =>
    rw [hname] at h
    exact absurd h (hfail _ hsent)
  | some name =>
    rw [hname] at h
    dsimp only at h
    by_cases harchive : (env.archive d).1 ≠ 0
    · rw [if_pos harchive] at h
      exact absurd h (hfail _ hsent)
    rw [if_neg harchive] at h
    by_cases hready : ¬(Fits (dcmPath env) name ∧ env.archiveExists)
    · rw [if_pos hready] at h
      exact absurd h (hfail _ hsent)
    rw [if_neg hready] at h
    split_ifs at h
    · rw [sent_writeUploadStatus] at h
      exact (Option.some.inj h).symm
    · rw [LogsNow.fail, sent_writeUploadStatus] at h
      exact (Option.some.inj h).symm

/-- The directory when it is archived: the logs have been copied over what has been there. -/
lemma sent_copyAndUpload (hsent : s.sent = none) (hlogs : ∀ l, logs = some l → l.names.Nodup)
    {sent : Directory Node} (h : (copyAndUpload env logs d s).2.sent = some sent) :
    ∃ l p, logs = some l ∧
      (∀ n, p.lookup n = copied env.copy (selects env) l n (d.lookup n)) ∧
      sent = (stamped env s.timestampPrefix p).2.getD p := by
  rw [copyAndUpload] at h
  dsimp only at h
  by_cases hfailed : (copyFilesToDcmPath env logs d).1 < 0
  · rw [if_pos hfailed, LogsNow.fail, sent_writeUploadStatus] at h
    exact absurd (hsent.symm.trans h) (by simp)
  rw [if_neg hfailed] at h
  by_cases hno : (copyFilesToDcmPath env logs d).1 = 0
  · rw [if_pos hno, sent_writeUploadStatus] at h
    exact absurd (hsent.symm.trans h) (by simp)
  rw [if_neg hno] at h
  have heq := sent_archiveAndUpload (by
    rw [sent_writeUploadStatus]
    exact hsent) h
  rw [copyFilesToDcmPath] at hfailed heq
  cases logs with
  | none => simp at hfailed
  | some l =>
    cases hentries : env.readdir l with
    | none =>
      rw [Option.bind_some, hentries] at hfailed
      simp at hfailed
    | some entries =>
      rw [Option.bind_some, hentries] at heq
      exact ⟨l, _, rfl, fun n => lookup_foldl_copyEntry (hlogs l rfl)
        (env.readdir_perm l entries hentries), heq⟩

/-- All calls succeed, but for the time, which cannot be told. -/
def sampleEnv : Env where
  logPath := "/opt/logs".toList
  dcmLogPath := []
  opensStatus _ := true
  time _ := none
  createsDcm := true
  readdir := some
  readdir_perm _ _ := perm_of_some_eq
  copy := plainCopy
  stamp := { Calls.succeeding 0 with now := none }
  archiveName := some "A84A_Logs_11-25-25-02-30PM.tgz".toList
  archive _ := (0, some .other)
  archiveExists := true
  uploads := true
  remove := ⟨fun _ => true, true, true⟩

def sampleLogs : Directory Node := [("dcm".toList, .directory []), ("core".toList, .regular [])]

end LogsNow

end DcmAgent.Strategies
