import Mathlib.Tactic
import DcmAgent.Library.CString

/-!
# The scheduled jobs of the daemon

Both jobs of the daemon, the log upload and the firmware update, run through `dcmRunJobs`. Its
last statement executes the command buffer of the handle, whatever the job is, but only the
firmware job writes the buffer.
-/

namespace DcmAgent.Daemon

open Library

def dcmLibPath : List Char := "/lib/rdk".toList

def dcmDefLogUrl : List Char := "https://falbackurl".toList

def dcmLogUploadSched : String := "DCM_LOG_UPLOAD"

def dcmDifdSched : String := "DCM_FW_UPDATE"

def maxDevicePropBuffSize : ℕ := 80

def execmdBuffSize : ℕ := 1024

def maxUrlSize : ℕ := 128

/-- The part of `DCMSettingsHandle` that the jobs read. -/
structure DCMSettingsHandle where
  cUploadURL : CBuffer maxUrlSize
  cUploadPrtl : CBuffer 8
  cRdkPath : CBuffer maxDevicePropBuffSize
  deriving DecidableEq

/-- The part of `DCMDHandle` that the jobs use. An initialised handle has a buffer. -/
structure DCMDHandle where
  pDcmSetHandle : Option DCMSettingsHandle
  pExecBuff : CBuffer execmdBuffSize
  deriving DecidableEq

/-- The parameters of a log upload. -/
structure UploadSTBLogsParams where
  flag : Int
  dcmFlag : Int
  uploadOnReboot : Bool
  uploadProtocol : List Char
  uploadHttpLink : List Char
  rrdFlag : Bool
  deriving DecidableEq

/-- What a job does outside the daemon: a call of the upload library, or a shell command. -/
inductive Effect where
  | uploadstblogsRun (params : UploadSTBLogsParams)
  | shell (cmd : List Char)
  deriving DecidableEq

def dcmSettingsGetRDKPath (pHandle : Option DCMSettingsHandle) : Option (List Char) :=
  pHandle.map (·.cRdkPath.str)

def dcmSettingsGetUploadProtocol (pHandle : Option DCMSettingsHandle) : Option (List Char) :=
  pHandle.map (·.cUploadPrtl.str)

def dcmSettingsGetUploadURL (pHandle : Option DCMSettingsHandle) : Option (List Char) :=
  pHandle.map (·.cUploadURL.str)

/-- Run a command through the shell. Only a null pointer is refused. -/
def dcmUtilsSysCmdExec {n : ℕ} (cmd : Option (CBuffer n)) : List Effect :=
  match cmd with
  | none => []
  | some b => [.shell b.str]

def binSh : List Char := "/bin/sh ".toList

def swupdateUtility : List Char :=
  "/swupdate_utility.sh 0 2 >> /opt/logs/swupdate.log 2>&1".toList

/-- The command of the firmware job. -/
def swupdateCommand (rdkPath : List Char) : List Char :=
  binSh ++ rdkPath ++ swupdateUtility

/-- The RDK path that the jobs use. -/
def DCMDHandle.rdkPath (h : DCMDHandle) : List Char :=
  (dcmSettingsGetRDKPath h.pDcmSetHandle).getD dcmLibPath

def uploadParams (h : DCMDHandle) : UploadSTBLogsParams where
  flag := 0
  dcmFlag := 1
  uploadOnReboot := false
  uploadProtocol := (dcmSettingsGetUploadProtocol h.pDcmSetHandle).getD "HTTP".toList
  uploadHttpLink := (dcmSettingsGetUploadURL h.pDcmSetHandle).getD dcmDefLogUrl
  rrdFlag := false

/-- The callback of the scheduler, with the flag of the maintenance manager. -/
def dcmRunJobs (mmFlag : Bool) (profileName : String) (h : DCMDHandle) :
    DCMDHandle × List Effect :=
  if mmFlag then (h, [])
  else if profileName = dcmLogUploadSched then
    (h, .uploadstblogsRun (uploadParams h) :: dcmUtilsSysCmdExec (some h.pExecBuff))
  else if profileName = dcmDifdSched then
    let buff := h.pExecBuff.snprintf (swupdateCommand h.rdkPath)
    ({ h with pExecBuff := buff }, dcmUtilsSysCmdExec (some buff))
  else (h, dcmUtilsSysCmdExec (some h.pExecBuff))

/-- The shell commands among the effects. -/
def commands (es : List Effect) : List (List Char) :=
  es.filterMap fun
    | .shell cmd => some cmd
    | .uploadstblogsRun _ => none

/-! ### Firings -/

/-- The two jobs that the daemon registers. -/
inductive Firing where
  | logUpload
  | difd
  deriving DecidableEq, Repr

def Firing.profileName : Firing → String
  | .logUpload => dcmLogUploadSched
  | .difd => dcmDifdSched

/-- The shell commands of each firing, with the maintenance manager disabled. -/
def runFirings (h : DCMDHandle) : List Firing → List (List (List Char))
  | [] => []
  | f :: fs =>
    let r := dcmRunJobs false f.profileName h
    commands r.2 :: runFirings r.1 fs

/-- The shell commands that a firing is there for. -/
def Firing.intended (h : DCMDHandle) : Firing → List (List Char)
  | .logUpload => []
  | .difd => [swupdateCommand h.rdkPath]

/-- Every firing executes what it is there for, and nothing else. -/
def RunsOnlyItsJobs (h : DCMDHandle) (fs : List Firing) : Prop :=
  runFirings h fs = fs.map (Firing.intended h)

/-- No firing changes what the RDK path is. -/
@[simp] lemma rdkPath_dcmRunJobs (mmFlag : Bool) (profileName : String) (h : DCMDHandle) :
    (dcmRunJobs mmFlag profileName h).1.rdkPath = h.rdkPath := by
  unfold dcmRunJobs
  split_ifs <;> rfl

lemma length_binSh : binSh.length = 8 := rfl

lemma length_swupdateUtility : swupdateUtility.length = 55 := rfl

lemma nul_notMem_binSh : nul ∉ binSh := by decide +kernel

lemma nul_notMem_swupdateUtility : nul ∉ swupdateUtility := by decide +kernel

lemma DCMDHandle.rdkPath_cases (h : DCMDHandle) :
    h.rdkPath = dcmLibPath ∨ ∃ b : CBuffer maxDevicePropBuffSize, h.rdkPath = b.str := by
  unfold DCMDHandle.rdkPath dcmSettingsGetRDKPath
  cases h.pDcmSetHandle with
  | none => exact Or.inl rfl
  | some s => exact Or.inr ⟨s.cRdkPath, rfl⟩

/-- The firmware command fits the buffer, as the RDK path has at most 80 characters. -/
lemma length_swupdateCommand_lt (h : DCMDHandle) :
    (swupdateCommand h.rdkPath).length < execmdBuffSize := by
  have hpath : h.rdkPath.length ≤ maxDevicePropBuffSize := by
    rcases h.rdkPath_cases with hlib | ⟨b, hb⟩
    · rw [hlib]
      decide
    · rw [hb]
      exact b.length_str_le
  rw [maxDevicePropBuffSize] at hpath
  rw [swupdateCommand, List.length_append, List.length_append, length_binSh,
    length_swupdateUtility, execmdBuffSize]
  omega

lemma nul_notMem_swupdateCommand (h : DCMDHandle) : nul ∉ swupdateCommand h.rdkPath := by
  have hpath : nul ∉ h.rdkPath := by
    rcases h.rdkPath_cases with hlib | ⟨b, hb⟩
    · rw [hlib]
      decide
    · rw [hb]
      exact b.nul_notMem_str
  simp only [swupdateCommand, List.mem_append, not_or]
  exact ⟨⟨nul_notMem_binSh, hpath⟩, nul_notMem_swupdateUtility⟩

/-- A firmware firing executes the firmware command and leaves it in the buffer. -/
lemma dcmRunJobs_difd (h : DCMDHandle) :
    commands (dcmRunJobs false dcmDifdSched h).2 = [swupdateCommand h.rdkPath] ∧
      (dcmRunJobs false dcmDifdSched h).1.pExecBuff.str = swupdateCommand h.rdkPath := by
  have hstr := h.pExecBuff.str_snprintf (nul_notMem_swupdateCommand h)
    (length_swupdateCommand_lt h)
  have hne : dcmDifdSched ≠ dcmLogUploadSched := by decide
  simp [dcmRunJobs, hne, dcmUtilsSysCmdExec, commands, hstr]

/-- A log upload firing executes the buffer as it finds it. -/
lemma dcmRunJobs_logUpload (h : DCMDHandle) :
    commands (dcmRunJobs false dcmLogUploadSched h).2 = [h.pExecBuff.str] := by
  simp [dcmRunJobs, dcmUtilsSysCmdExec, commands]

lemma intended_dcmRunJobs (h : DCMDHandle) (profileName : String) :
    Firing.intended (dcmRunJobs false profileName h).1 = Firing.intended h := by
  funext f
  cases f <;> simp [Firing.intended]

/-- One firing in front of a sequence: both parts must do their jobs. -/
lemma runsOnlyItsJobs_cons (h : DCMDHandle) (f : Firing) (fs : List Firing) :
    RunsOnlyItsJobs h (f :: fs) ↔
      f = .difd ∧ RunsOnlyItsJobs (dcmRunJobs false f.profileName h).1 fs := by
  rw [RunsOnlyItsJobs, RunsOnlyItsJobs, runFirings, List.map_cons, List.cons.injEq,
    intended_dcmRunJobs]
  refine and_congr_left' ?_
  cases f with
  | logUpload => simp [Firing.profileName, dcmRunJobs_logUpload, Firing.intended]
  | difd => simp [Firing.profileName, dcmRunJobs_difd, Firing.intended]

/-- **The firings of the daemon.** Every firing executes exactly its own shell commands if and
only if none of them is a log upload. -/
theorem runsOnlyItsJobs_iff (h : DCMDHandle) (fs : List Firing) :
    RunsOnlyItsJobs h fs ↔ Firing.logUpload ∉ fs := by
  induction fs generalizing h with
  | nil => simp [RunsOnlyItsJobs, runFirings]
  | cons f fs ih =>
    rw [runsOnlyItsJobs_cons, ih]
    cases f <;> simp

/-- The handle after the initialisation, with a buffer that happens to be filled with `c`. -/
def freshHandle (c : Char) : DCMDHandle where
  pDcmSetHandle := some
    { cUploadURL := .fill _ nul
      cUploadPrtl := .fill _ nul
      cRdkPath := (CBuffer.fill _ nul).snprintf dcmLibPath }
  pExecBuff := .fill _ c

/-- A log upload after a firmware update runs the firmware update once more, and one before any
firmware update runs what `malloc` left in the buffer. -/
theorem logUpload_executes_leftover :
    runFirings (freshHandle 'x') [.difd, .logUpload] =
        [[swupdateCommand (freshHandle 'x').rdkPath],
          [swupdateCommand (freshHandle 'x').rdkPath]] ∧
      runFirings (freshHandle 'x') [.logUpload] = [[(freshHandle 'x').pExecBuff.str]] ∧
      ¬RunsOnlyItsJobs (freshHandle 'x') [.difd, .logUpload] := by
  refine ⟨?_, ?_, ?_⟩
  · simp [runFirings, Firing.profileName, dcmRunJobs_difd, dcmRunJobs_logUpload]
  · simp [runFirings, Firing.profileName, dcmRunJobs_logUpload]
  · simp [runsOnlyItsJobs_cons]

end DcmAgent.Daemon
