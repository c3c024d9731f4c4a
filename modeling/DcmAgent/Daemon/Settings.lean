import Mathlib.Tactic
import DcmAgent.Cron.Parse
import DcmAgent.Daemon.RunJobs

/-!
# The settings

`dcmSettingParseConf` reads a configuration document into the handle of the settings, hands the
two cron patterns out and starts log uploads. The JSON parser is a parameter. A string that does
not fit its array has no defined behaviour, which is `none`.
-/

namespace DcmAgent.Daemon

open Library

def dcmT2JsonStr : List Char := "urn:settings:TelemetryProfile".toList

def dcmLogUploadProtocol : List Char :=
  "urn:settings:LogUploadSettings:UploadRepository:uploadProtocol".toList

def dcmLogUploadUrl : List Char := "urn:settings:LogUploadSettings:UploadRepository:URL".toList

def dcmLogUploadReboot : List Char := "urn:settings:LogUploadSettings:UploadOnReboot".toList

def dcmLogUploadCron : List Char := "urn:settings:LogUploadSettings:UploadSchedule:cron".toList

def dcmDifdCron : List Char := "urn:settings:CheckSchedule:cron".toList

def dcmTimezone : List Char := "urn:settings:TimeZoneMode".toList

def dcmDefTimezone : List Char := "Local Time".toList

def dcmDefProtocol : List Char := "HTTP".toList

def dcmJsonStrSize : ℕ := 2048

/-! ### Documents -/

/-- The value of a member, an array or an object being neither read nor told apart. -/
inductive JsonItem where
  | bool (b : Bool)
  | number (valueint : ℤ)
  | string (valuestring : List Char)
  | null
  | nested
  deriving DecidableEq, Repr

/-- The members of a parsed document, in order. -/
abbrev Json := List (List Char × JsonItem)

/-- The first member with a key, letter case aside. -/
def cJSONGetObjectItem (json : Json) (item : List Char) : Option JsonItem :=
  (json.find? fun m => m.1.map Char.toLower = item.map Char.toLower).map (·.2)

inductive JsonItemType where
  | bool
  | int
  | str
  | null
  deriving DecidableEq, Repr

/-- What a lookup returns, whether the member is there, and what it leaves in its arguments. -/
structure JsonVal (n : ℕ) where
  ret : Bool
  sval : CBuffer n
  ival : ℤ
  type : JsonItemType

def dcmSettingJsonGetVal {n : ℕ} (json : Json) (item : List Char) (sval : CBuffer n) :
    Option (JsonVal n) :=
  -- the string is empty unless the member is one
  (sval.strcpy []).bind fun sval =>
    match cJSONGetObjectItem json item with
    | none => some ⟨false, sval, 0, .null⟩
    | some (.bool b) => some ⟨true, sval, if b then 1 else 0, .bool⟩
    | some (.number valueint) => some ⟨true, sval, valueint, .int⟩
    | some (.string valuestring) => (sval.strcpy valuestring).map (⟨true, ·, 0, .str⟩)
    | some .null => some ⟨true, sval, 0, .null⟩
    | some .nested => some ⟨true, sval, 0, .null⟩

/-- The line of a document without its telemetry member, which is cut off with the two characters
before it. -/
def removeTelemetry (line : List Char) : Option (List Char) :=
  match Cron.strstr dcmT2JsonStr line with
  | none => some line
  | some lc => if 2 ≤ lc then some (line.take (lc - 2) ++ ['}']) else none

/-- Open and parse a document; `none` inside when that fails. -/
def dcmSettingJsonInit (parse : List Char → Option Json) (infile : Option (List Char)) :
    Option (Option Json) :=
  match infile with
  | none => some none
  | some content =>
    match fgets dcmJsonStrSize content with
    | none => some none
    | some line => (removeTelemetry (line.takeWhile (· ≠ nul))).map parse

/-! ### The settings of the daemon -/

inductive TriggerType where
  | scheduled
  | reboot
  deriving DecidableEq, Repr

/-- Why a log upload is started. -/
inductive UploadReason where
  | rebootFlag
  | emptyCron
  deriving DecidableEq, Repr

structure UploadStart where
  reason : UploadReason
  params : UploadSTBLogsParams
  triggerType : TriggerType
  deriving DecidableEq

/-- The handle of the settings, with the two patterns of the daemon. -/
structure Settings where
  handle : DCMSettingsHandle
  cTimeZone : CBuffer 16
  bRebootFlag : ℤ
  logCron : CBuffer 16
  difdCron : CBuffer 16
  deriving DecidableEq

/-- The handle after `dcmSettingsInit`, with the path of the properties. -/
def dcmSettingsInit (cRdkPath : CBuffer maxDevicePropBuffSize) : Settings where
  handle := ⟨.fill _ nul, .fill _ nul, cRdkPath⟩
  cTimeZone := .fill _ nul
  bRebootFlag := 0
  logCron := .fill _ nul
  difdCron := .fill _ nul

/-- A text setting, which has a default. -/
def readSetting {n : ℕ} (json : Json) (item : List Char) (buff : CBuffer n) (dflt : List Char) :
    Option (CBuffer n) :=
  (dcmSettingJsonGetVal json item buff).bind fun v =>
    if ¬v.ret ∨ v.type ≠ .str ∨ v.sval.str.length = 0 then v.sval.strcpy dflt else some v.sval

/-- A cron pattern, which is empty unless the document has a text; with what the lookup returns. -/
def readCron {n : ℕ} (json : Json) (item : List Char) (buff : CBuffer n) :
    Option (Bool × CBuffer n) :=
  (dcmSettingJsonGetVal json item buff).bind fun v =>
    if ¬v.ret ∨ v.type ≠ .str then (v.sval.strcpy []).map (v.ret, ·) else some (v.ret, v.sval)

def uploadStart (h : DCMSettingsHandle) (reason : UploadReason) (uploadOnReboot : Bool)
    (triggerType : TriggerType) : UploadStart where
  reason := reason
  params := ⟨1, 1, uploadOnReboot, h.cUploadPrtl.str, h.cUploadURL.str, false⟩
  triggerType := triggerType

/-- The upload that the reboot flag guards. -/
def rebootUpload (s : Settings) (uploadCheck : ℤ) : List UploadStart :=
  if uploadCheck = 1 ∧ s.bRebootFlag = 0 then [uploadStart s.handle .rebootFlag true .reboot]
  else if uploadCheck = 0 ∧ s.bRebootFlag = 0 then
    [uploadStart s.handle .rebootFlag false .scheduled]
  else []

def emptyCronUpload (s : Settings) : List UploadStart :=
  if s.logCron.str.length = 0 then [uploadStart s.handle .emptyCron false .scheduled] else []

/-- What a call of `dcmSettingParseConf` returns and does. -/
structure ParseOutcome where
  ret : Bool
  settings : Settings
  uploads : List UploadStart

/-- A document that has been parsed. The call returns what its last lookup does. -/
def applyConf (s : Settings) (json : Json) : Option ParseOutcome := do
  let prtl ← readSetting json dcmLogUploadProtocol s.handle.cUploadPrtl dcmDefProtocol
  let url ← readSetting json dcmLogUploadUrl s.handle.cUploadURL dcmDefLogUrl
  let zone ← readSetting json dcmTimezone s.cTimeZone dcmDefTimezone
  -- the text of this lookup goes to a single character
  let check ← dcmSettingJsonGetVal json dcmLogUploadReboot (CBuffer.fill 1 nul)
  let logCron ← readCron json dcmLogUploadCron s.logCron
  let difdCron ← readCron json dcmDifdCron s.difdCron
  let s' : Settings :=
    { s with
      handle := { s.handle with cUploadPrtl := prtl, cUploadURL := url }
      cTimeZone := zone
      logCron := logCron.2
      difdCron := difdCron.2 }
  return ⟨difdCron.1, s', rebootUpload s' check.ival ++ emptyCronUpload s'⟩

def dcmSettingParseConf (parse : List Char → Option Json) (s : Settings)
    (conffile : Option (List Char)) : Option ParseOutcome :=
  (dcmSettingJsonInit parse conffile).bind fun
    | none => some ⟨false, s, []⟩
    | some json => applyConf s json

end DcmAgent.Daemon
