import Mathlib.Tactic
import DcmAgent.Daemon.Settings

/-!
# The upload at boot

`bRebootFlag` is to start the upload of a boot with the first document only. It is tested with
every document, and nothing sets it.
-/

namespace DcmAgent.Daemon

open Library

variable {parse : List Char → Option Json} {s : Settings} {conf : Option (List Char)}

/-- The calls for the documents received over the life of a handle. -/
def parseConfs (parse : List Char → Option Json) :
    Settings → List (Option (List Char)) → Option (List ParseOutcome)
  | _, [] => some []
  | s, conf :: confs => (dcmSettingParseConf parse s conf).bind fun o =>
      (parseConfs parse o.settings confs).map (o :: ·)

/-- The call has started the upload that the flag guards. -/
def ParseOutcome.startsRebootUpload (o : ParseOutcome) : Bool :=
  o.uploads.any fun u => u.reason = .rebootFlag

/-- A member that reads as a flag: everything but a number other than `0` and `1`. -/
def JsonItem.isFlag : JsonItem → Bool
  | .number valueint => valueint = 0 ∨ valueint = 1
  | _ => true

/-- A document that is read and parsed, and has no other number for the upload at boot. -/
def readsAsFlag (parse : List Char → Option Json) (conf : Option (List Char)) : Bool :=
  match dcmSettingJsonInit parse conf with
  | some (some json) => (cJSONGetObjectItem json dcmLogUploadReboot).all JsonItem.isFlag
  | _ => false

/-! ### One call -/

/-- What the lookup of a member gives as an integer. -/
def JsonItem.ival : Option JsonItem → ℤ
  | some (.bool true) => 1
  | some (.number valueint) => valueint
  | _ => 0

lemma dcmSettingJsonGetVal_ival {n : ℕ} {json : Json} {item : List Char} {sval : CBuffer n}
    {v : JsonVal n} (h : dcmSettingJsonGetVal json item sval = some v) :
    v.ival = JsonItem.ival (cJSONGetObjectItem json item) := by
  obtain ⟨sval', -, h⟩ := Option.bind_eq_some_iff.mp h
  cases hitem : cJSONGetObjectItem json item with
  | none =>
    simp only [hitem, Option.some.injEq] at h
    simp [← h, JsonItem.ival]
  | some item =>
    simp only [hitem] at h
    cases item with
    | bool b =>
      obtain rfl := Option.some.inj h
      cases b <;> rfl
    | string valuestring =>
      obtain ⟨_, _, rfl⟩ := Option.map_eq_some_iff.mp h
      rfl
    | _ =>
      obtain rfl := Option.some.inj h
      rfl

lemma isFlag_iff_ival (item : Option JsonItem) :
    item.all JsonItem.isFlag = true ↔ JsonItem.ival item = 0 ∨ JsonItem.ival item = 1 := by
  cases item with
  | none => simp [JsonItem.ival]
  | some item =>
    cases item with
    | bool b => cases b <;> simp [JsonItem.ival, JsonItem.isFlag]
    | number v => simp [JsonItem.ival, JsonItem.isFlag]
    | _ => simp [JsonItem.ival, JsonItem.isFlag]

lemma any_uploads (hflag : s.bRebootFlag = 0) (check : ℤ) :
    ((rebootUpload s check ++ emptyCronUpload s).any fun u => u.reason = .rebootFlag) = true ↔
      check = 0 ∨ check = 1 := by
  have hcron : ((emptyCronUpload s).any fun u => u.reason = .rebootFlag) = false := by
    unfold emptyCronUpload
    split_ifs <;> simp [uploadStart]
  rw [List.any_append, hcron, Bool.or_false]
  unfold rebootUpload
  split_ifs with h₁ h₀
  · simp [uploadStart, h₁.1]
  · simp [uploadStart, h₀.1]
  · simp only [hflag, and_true] at h₁ h₀
    simp [h₁, h₀]

/-- A call leaves the flag clear, and starts the guarded upload if the document reads as a
flag. -/
lemma dcmSettingParseConf_flag {o : ParseOutcome} (hflag : s.bRebootFlag = 0)
    (h : dcmSettingParseConf parse s conf = some o) :
    o.settings.bRebootFlag = 0 ∧ o.startsRebootUpload = readsAsFlag parse conf := by
  obtain ⟨json, hinit, h⟩ := Option.bind_eq_some_iff.mp h
  cases json with
  | none =>
    obtain rfl := Option.some.inj h
    exact ⟨hflag, by simp [ParseOutcome.startsRebootUpload, readsAsFlag, hinit]⟩
  | some json =>
    simp only [applyConf, bind, pure, Option.bind_eq_some_iff] at h
    obtain ⟨prtl, -, url, -, zone, -, check, hcheck, logCron, -, difdCron, -, h⟩ := h
    obtain rfl := Option.some.inj h
    refine ⟨hflag, ?_⟩
    rw [Bool.eq_iff_iff, readsAsFlag, hinit, isFlag_iff_ival, ← dcmSettingJsonGetVal_ival hcheck]
    apply any_uploads
    exact hflag

/-! ### Every call -/

lemma parseConfs_flags {confs : List (Option (List Char))} {os : List ParseOutcome}
    (hflag : s.bRebootFlag = 0) (h : parseConfs parse s confs = some os) :
    os.map (·.startsRebootUpload) = confs.map (readsAsFlag parse) := by
  induction confs generalizing s os with
  | nil =>
    obtain rfl := Option.some.inj h
    rfl
  | cons conf confs ih =>
    obtain ⟨o, ho, h⟩ := Option.bind_eq_some_iff.mp h
    obtain ⟨os, hos, rfl⟩ := Option.map_eq_some_iff.mp h
    obtain ⟨hflag', hstart⟩ := dcmSettingParseConf_flag hflag ho
    simp only [List.map_cons, hstart, ih hflag' hos]

/-- **The upload at boot.** At most one of the calls on a handle starts the guarded upload exactly
when at most one of the documents reads as a flag. -/
theorem startsRebootUpload_atMostOnce (parse : List Char → Option Json)
    (cRdkPath : CBuffer maxDevicePropBuffSize) (confs : List (Option (List Char)))
    (os : List ParseOutcome) (h : parseConfs parse (dcmSettingsInit cRdkPath) confs = some os) :
    os.countP (·.startsRebootUpload) ≤ 1 ↔ confs.countP (readsAsFlag parse) ≤ 1 := by
  have hflags := congrArg (List.countP id) (parseConfs_flags rfl h)
  simp only [List.countP_map, Function.id_comp] at hflags
  rw [hflags]

/-- A document with one member, and what it parses to. -/
def rebootConf (value : String) : List Char :=
  '{' :: '"' :: dcmLogUploadReboot ++ '"' :: ':' :: value.toList ++ ['}']

/-- A parser for two of these documents. -/
def parseRebootConf (line : List Char) : Option Json :=
  if line = rebootConf "true" then some [(dcmLogUploadReboot, .bool true)]
  else if line = rebootConf "5" then some [(dcmLogUploadReboot, .number 5)]
  else none

/-- A flag, a number that is none, and a file that is not there. -/
theorem one_flag_one_upload :
    ∃ os ∈ parseConfs parseRebootConf (dcmSettingsInit (.fill _ nul))
        [some (rebootConf "true"), some (rebootConf "5"), none],
      os.length = 3 ∧ os.countP (·.startsRebootUpload) ≤ 1 := by
  have hrun : ∃ os ∈ parseConfs parseRebootConf (dcmSettingsInit (.fill _ nul))
      [some (rebootConf "true"), some (rebootConf "5"), none], os.length = 3 := by
    decide +kernel
  obtain ⟨os, hos, hlen⟩ := hrun
  refine ⟨os, hos, hlen, ?_⟩
  apply (startsRebootUpload_atMostOnce _ _ _ os hos).mpr
  decide +kernel

/-- The same document twice: both calls start the upload. -/
theorem same_flag_two_uploads :
    ∃ os ∈ parseConfs parseRebootConf (dcmSettingsInit (.fill _ nul))
        [some (rebootConf "true"), some (rebootConf "true")],
      os.countP (·.startsRebootUpload) = 2 := by
  decide +kernel

end DcmAgent.Daemon
