import Mathlib.Tactic
import DcmAgent.Cron.Parse
import DcmAgent.Upload.Engine

/-!
# A run of the log upload

`uploadstblogsRun` and `uploadstblogsExecute` build the context, choose a strategy, and upload an
archive through the engine. What the file system, the system services and the attempts do is the
environment of the run.
-/

namespace DcmAgent.Upload

/-! ### Block markers -/

/-- The file of a marker. An unreadable one cannot be opened without following a link, or has no
status. -/
inductive BlockMarker where
  | absent
  | unreadable
  | present (modTime : ℤ)
  deriving DecidableEq, Repr

structure Markers where
  direct : BlockMarker
  codebig : BlockMarker
  deriving DecidableEq, Repr

/-- Whether a marker blocks its path, and the marker afterwards: an expired one is removed. -/
def isBlocked (blockTime now : ℤ) (unlinkOk : Bool) : BlockMarker → Bool × BlockMarker
  | .present modTime =>
    if now - modTime ≤ blockTime then (true, .present modTime)
    else (false, if unlinkOk then .absent else .present modTime)
  | marker => (false, marker)

def isDirectBlocked (blockTime now : ℤ) (unlinkOk : Bool) (m : Markers) : Bool × Markers :=
  let r := isBlocked blockTime now unlinkOk m.direct
  (r.1, { m with direct := r.2 })

def isCodebigBlocked (blockTime now : ℤ) (unlinkOk : Bool) (m : Markers) : Bool × Markers :=
  let r := isBlocked blockTime now unlinkOk m.codebig
  (r.1, { m with codebig := r.2 })

/-! ### The context -/

inductive TriggerType where
  | scheduled
  | manual
  | reboot
  | crash
  | debug
  | ondemand
  | memcapture
  deriving DecidableEq, Repr

inductive Strategy where
  | rrd
  | privacyAbort
  | noLogs
  | nonDcm
  | ondemand
  | reboot
  | dcm
  deriving DecidableEq, Repr

/-- The parameters of `uploadstblogs_run` that the control flow depends on. -/
structure RunParams where
  flag : ℤ
  dcmFlag : ℤ
  uploadOnReboot : Bool
  triggerType : TriggerType
  rrdFlag : Bool
  deriving DecidableEq, Repr

/-- The part of the context that decides what is uploaded, and on which paths. -/
structure Context extends RuntimeContext where
  flag : ℤ
  dcmFlag : ℤ
  uploadOnReboot : ℤ
  triggerType : TriggerType
  rrdFlag : ℤ
  deviceType : List Char
  privacyDoNotShare : Bool
  directBlocked : Bool
  codebigBlocked : Bool
  includeDri : Bool
  uploadlogsnowMode : Bool
  deriving DecidableEq, Repr

/-- How far the creation of an archive gets: the file is not opened, it is opened but not completed,
or it is complete. -/
inductive ArchiveCreation where
  | refused
  | incomplete
  | complete
  deriving DecidableEq, Repr

/-- What a run finds around it: the lock, the properties of the device, the markers, what the
phases of the workflow meet, and the outcomes of the attempts for the logs and for the DRI logs. -/
structure RunEnv where
  lockAcquired : Bool
  parametersLoaded : Bool
  deviceType : List Char
  privacyDoNotShare : Bool
  markers : Markers
  directBlockTime : ℤ
  codebigBlockTime : ℤ
  now : ℤ
  directUnlinkOk : Bool
  codebigUnlinkOk : Bool
  systemValid : Bool
  codebigAccess : Bool
  rrdFileExists : Bool
  dcmDirCreated : Bool
  copiedFiles : ℤ
  setupOk : Bool
  archive : ArchiveCreation
  archivePathFits : Bool
  archiveReady : Bool
  scheduledReboot : Bool
  disableUnscheduledUpload : Bool
  driDirExists : Bool
  driArchiveOk : Bool
  driPathFits : Bool
  driArchiveReady : Bool
  cleanupOk : Bool
  finalizeTime : ℤ
  outcomes : ℕ → Outcome
  driOutcomes : ℕ → Outcome

/-- `create_archive` succeeds. -/
def RunEnv.archiveOk (env : RunEnv) : Bool := env.archive = .complete

/-- The context with its defaults, and the markers without the expired ones. -/
def initContext (env : RunEnv) : Bool × Context × Markers :=
  let d := isDirectBlocked env.directBlockTime env.now env.directUnlinkOk env.markers
  let c := isCodebigBlocked env.codebigBlockTime env.now env.codebigUnlinkOk d.2
  (env.parametersLoaded,
    { directMaxAttempts := 3
      codebigMaxAttempts := 1
      flag := 0
      dcmFlag := 0
      uploadOnReboot := 0
      triggerType := .scheduled
      rrdFlag := 0
      deviceType := env.deviceType
      privacyDoNotShare := env.privacyDoNotShare
      directBlocked := d.1
      codebigBlocked := c.1
      includeDri := true
      uploadlogsnowMode := false }, c.2)

def isPrivacyMode (ctx : Context) : Bool :=
  if ctx.deviceType = [] ∨ ctx.deviceType.map Char.toLower ≠ "mediaclient".toList then false
  else ctx.privacyDoNotShare

def earlyChecks (ctx : Context) : Strategy :=
  if ctx.rrdFlag = 1 then .rrd
  else if isPrivacyMode ctx then .privacyAbort
  else if ctx.dcmFlag = 0 then .nonDcm
  else if ctx.dcmFlag = 1 ∧ ctx.flag = 1 then
    if ctx.triggerType = .ondemand then .ondemand else .reboot
  else .dcm

/-! ### The session -/

/-- A session filled with zeros: the first path of the enumeration is the direct one. -/
def SessionState.zero : SessionState where
  primary := .direct
  fallback := .direct
  directAttempts := 0
  codebigAttempts := 0
  httpCode := 0
  curlCode := 0
  usedFallback := false
  success := false

/-- The primary and the fallback path. CodeBig without access counts as blocked. -/
def decidedPaths (ctx : Context) (access : Bool) : UploadPath × UploadPath :=
  let codebigBlocked := if ctx.codebigBlocked then true else !access
  if ¬ctx.directBlocked ∧ ¬codebigBlocked then (.direct, .codebig)
  else if ctx.directBlocked ∧ ¬codebigBlocked then (.codebig, .none)
  else if ¬ctx.directBlocked ∧ codebigBlocked then (.direct, .none)
  else (.none, .none)

def decidePaths (ctx : Context) (access : Bool) (session : SessionState) : SessionState :=
  { session with
    primary := (decidedPaths ctx access).1
    fallback := (decidedPaths ctx access).2 }

/-- One run of the engine: the paths of the session on entry, the attempts and the verdict. -/
structure CycleTrace where
  primary : UploadPath
  fallback : UploadPath
  attempted : List UploadPath
  ok : Bool
  deriving DecidableEq, Repr

/-- The session of a run, the markers, and what has been done: the runs of the engine and the
markers that have been created. -/
structure RunState where
  session : SessionState
  markers : Markers
  cycles : List CycleTrace
  created : List UploadPath
  deriving DecidableEq, Repr

def RunState.uploadCycle (ctx : Context) (outcomes : ℕ → Outcome) (s : RunState) :
    Bool × RunState :=
  let r := executeUploadCycle ctx.toRuntimeContext outcomes s.session
  (r.1, { s with
    session := r.2.session
    cycles := s.cycles ++ [⟨s.session.primary, s.session.fallback, r.2.attempted, r.1⟩] })

/-- An archive that does not exist or is empty is not uploaded. -/
def uploadArchive (ctx : Context) (ready : Bool) (outcomes : ℕ → Outcome) (s : RunState) :
    Bool × RunState :=
  if ready then s.uploadCycle ctx outcomes else (false, s)

/-! ### The strategies -/

def ondemandUpload (env : RunEnv) (ctx : Context) (s : RunState) : Bool × RunState :=
  if ctx.flag = 0 then (true, s) else uploadArchive ctx env.archiveReady env.outcomes s

def dcmUpload (env : RunEnv) (ctx : Context) (s : RunState) : Bool × RunState :=
  if ¬env.archivePathFits then (false, s)
  else uploadArchive ctx env.archiveReady env.outcomes s

/-- The DRI logs are uploaded with a copy of the session. -/
def driUpload (env : RunEnv) (ctx : Context) (s : RunState) : RunState :=
  if ctx.includeDri ∧ env.driDirExists ∧ env.driArchiveOk ∧ env.driPathFits then
    let driSession := { s.session with directAttempts := 0, codebigAttempts := 0 }
    let r := uploadArchive ctx env.driArchiveReady env.driOutcomes { s with session := driSession }
    { r.2 with session := s.session }
  else s

def shouldUpload (env : RunEnv) (ctx : Context) : Bool :=
  ctx.dcmFlag = 0 ∨ ctx.uploadOnReboot = 1 ∨
    (¬env.scheduledReboot ∧ ¬env.disableUnscheduledUpload)

def rebootUpload (env : RunEnv) (ctx : Context) (s : RunState) : Bool × RunState :=
  if ¬env.archivePathFits then (false, s)
  else if ¬shouldUpload env ctx then (true, s)
  else
    let r := uploadArchive ctx env.archiveReady env.outcomes s
    (r.1, driUpload env ctx r.2)

/-- The upload phase of a strategy that has a workflow. -/
def getStrategyHandler (env : RunEnv) : Strategy → Option (Context → RunState → Bool × RunState)
  | .ondemand => some (ondemandUpload env)
  | .reboot => some (rebootUpload env)
  | .nonDcm => some (rebootUpload env)
  | .dcm => some (dcmUpload env)
  | .rrd => none
  | .privacyAbort => none
  | .noLogs => none

/-- Set up, archive, upload, and clean up in any case. -/
def executeStrategyWorkflow (env : RunEnv) (ctx : Context) (strategy : Strategy) (s : RunState) :
    Bool × RunState :=
  match getStrategyHandler env strategy with
  | none => (false, s)
  | some uploadPhase =>
    let r := if env.setupOk ∧ env.archiveOk then uploadPhase ctx s else (false, s)
    (r.1 && env.cleanupOk, r.2)

/-! ### The end of a run -/

def createBlockMarker (env : RunEnv) (path : UploadPath) (s : RunState) : RunState :=
  match path with
  | .direct => { s with
      markers := { s.markers with direct := .present env.finalizeTime }
      created := s.created ++ [.direct] }
  | .codebig => { s with
      markers := { s.markers with codebig := .present env.finalizeTime }
      created := s.created ++ [.codebig] }
  | .none => s

def updateBlockMarkers (env : RunEnv) (s : RunState) : RunState :=
  if s.session.success then
    if s.session.usedFallback ∨ s.session.codebigAttempts > 0 then createBlockMarker env .direct s
    else s
  else if s.session.codebigAttempts > 0 then createBlockMarker env .codebig s
  else s

/-- Only the markers matter here; the archive and the temporary files go as well. -/
def finalize (env : RunEnv) (s : RunState) : RunState := updateBlockMarkers env s

/-! ### Runs -/

/-- The upload of an archive that exists already. -/
def rrdRun (env : RunEnv) (ctx : Context) (s : RunState) : ℤ × RunState :=
  if ¬env.rrdFileExists then (1, s)
  else
    let session := decidePaths ctx env.codebigAccess s.session
    let r := { s with session := session }.uploadCycle ctx env.outcomes
    (if r.1 then 0 else 1, finalize env r.2)

/-- A workflow that fails ends the run at once. -/
def workflowRun (env : RunEnv) (ctx : Context) (strategy : Strategy) (s : RunState) :
    ℤ × RunState :=
  let r := executeStrategyWorkflow env ctx strategy s
  if ¬r.1 then (1, r.2) else (if r.2.session.success then 0 else 1, finalize env r.2)

/-- The part of a run that follows the validation of the system. -/
def runStrategy (env : RunEnv) (ctx : Context) (s : RunState) : ℤ × RunState :=
  match earlyChecks ctx with
  | .privacyAbort => (0, s)
  | .rrd => rrdRun env ctx s
  | strategy => workflowRun env ctx strategy s

/-- The context of a call with parameters. -/
def Context.ofParams (ctx : Context) (params : RunParams) : Context :=
  { ctx with
    flag := params.flag
    dcmFlag := params.dcmFlag
    uploadOnReboot := if params.uploadOnReboot then 1 else 0
    triggerType := params.triggerType
    rrdFlag := if params.rrdFlag then 1 else 0 }

/-- The state of a run before anything has been uploaded. -/
def RunState.start (markers : Markers) : RunState := ⟨.zero, markers, [], []⟩

def uploadstblogsRun (env : RunEnv) (params : RunParams) : ℤ × RunState :=
  if ¬env.lockAcquired then (1, .start env.markers)
  else
    let init := initContext env
    let s := RunState.start init.2.2
    let ctx := init.2.1.ofParams params
    if ¬init.1 then (1, s)
    else if ¬env.systemValid then (1, s)
    else runStrategy env ctx s

/-- The integer that a text starts with, after blanks. -/
def leadingInteger (s : List Char) : ℤ :=
  let digits (s : List Char) : ℤ :=
    (s.takeWhile Char.isDigit).foldl (fun n c => 10 * n + (c.toNat - '0'.toNat)) 0
  match s.dropWhile Cron.isSpace with
  | '-' :: s => -digits s
  | '+' :: s => digits s
  | s => digits s

/-- `strtol` stops at the ends of `long`, and the result is cast to `int`. -/
def atoi (s : List Char) : ℤ :=
  (max (-2 ^ 63) (min (2 ^ 63 - 1) (leadingInteger s))).bmod (2 ^ 32)

/-- The trigger that a command line names, if it is known. -/
def parseTriggerType (arg : List Char) (old : TriggerType) : TriggerType :=
  if arg = "cron".toList then .scheduled
  else if arg = "ondemand".toList then .ondemand
  else if arg = "manual".toList then .manual
  else if arg = "reboot".toList then .reboot
  else if arg = "MEMCAPTURE".toList then .memcapture
  else old

/-- The context of a command line, which starts with the name of the program. -/
def parseArgs (argv : List (List Char)) (ctx : Context) : Context :=
  if argv[1]? = some "uploadlogsnow".toList then
    { ctx with
      flag := 1
      dcmFlag := 1
      uploadOnReboot := 1
      triggerType := .ondemand
      rrdFlag := 0
      uploadlogsnowMode := true }
  else
    { ctx with
      flag := argv[2]?.elim ctx.flag atoi
      dcmFlag := argv[3]?.elim ctx.dcmFlag atoi
      uploadOnReboot := argv[4]?.elim ctx.uploadOnReboot fun arg =>
        if arg = "true".toList ∨ arg = "1".toList then 1 else 0
      triggerType := argv[7]?.elim ctx.triggerType (parseTriggerType · ctx.triggerType)
      rrdFlag := argv[8]?.elim ctx.rrdFlag fun arg => if arg = "true".toList then 1 else 0 }

/-- The workflow of `uploadlogsnow`, which has a session of its own. -/
def executeUploadlogsnowWorkflow (env : RunEnv) (ctx : Context) (s : RunState) : ℤ × RunState :=
  if ¬env.dcmDirCreated then (-1, s)
  else if env.copiedFiles < 0 then (-1, s)
  else if env.copiedFiles = 0 then (0, s)
  else if ¬env.archiveOk then (-1, s)
  else if ¬env.archivePathFits then (-1, s)
  else if ¬env.archiveReady then (-1, s)
  else
    let session := decidePaths ctx env.codebigAccess .zero
    let r := { s with session := session }.uploadCycle ctx env.outcomes
    (if r.1 then 0 else -1, r.2)

def uploadstblogsExecute (env : RunEnv) (argv : List (List Char)) : ℤ × RunState :=
  if ¬env.lockAcquired then (1, .start env.markers)
  else
    let init := initContext env
    let s := RunState.start init.2.2
    let ctx := parseArgs argv init.2.1
    if ¬init.1 then (1, s)
    else if ctx.uploadlogsnowMode then executeUploadlogsnowWorkflow env ctx s
    else if ¬env.systemValid then (1, s)
    else runStrategy env ctx s

end DcmAgent.Upload
