import Mathlib.Tactic
import DcmAgent.Daemon.Settings
import DcmAgent.Scheduler.Thread

/-!
# The two schedules

With every document the main loop starts both jobs again, when the parser returns success. The
parser returns what its last lookup does, which is the one of the firmware cron: without that
member neither job is started again.
-/

namespace DcmAgent.Daemon

open Library Scheduler Cron

/-- The settings of the daemon with its two jobs. -/
structure Schedules where
  settings : Settings
  pLogSchedHandle : DCMScheduler
  pDifdSchedHandle : DCMScheduler
  deriving DecidableEq

/-- One turn of the main loop, with a document. -/
def processConf (parse : List Char → Option Json) (d : Schedules) (conf : Option (List Char)) :
    Option Schedules :=
  (dcmSettingParseConf parse d.settings conf).map fun o =>
    if o.ret then
      { settings := o.settings
        pLogSchedHandle := (dcmSchedStartJob d.pLogSchedHandle (some o.settings.logCron.str)).2
        pDifdSchedHandle := (dcmSchedStartJob d.pDifdSchedHandle (some o.settings.difdCron.str)).2 }
    else { d with settings := o.settings }

/-- The document as it is parsed: its first line, cut off and without the telemetry member. -/
def readConf (parse : List Char → Option Json) (conf : Option (List Char)) : Option Json :=
  (dcmSettingJsonInit parse conf).join

/-- The documents have the same members, but for those with this key. -/
def DifferOnlyIn (item : List Char) (json json' : Json) : Prop :=
  json.filter (fun m => m.1.map Char.toLower ≠ item.map Char.toLower) =
    json'.filter fun m => m.1.map Char.toLower ≠ item.map Char.toLower

instance (item : List Char) (json json' : Json) : Decidable (DifferOnlyIn item json json') :=
  inferInstanceAs (Decidable (_ = _))

/-- Nothing but this member tells the documents apart, when both are read. -/
def ConfsDifferOnlyIn (parse : List Char → Option Json) (item : List Char)
    (conf conf' : Option (List Char)) : Prop :=
  ∀ json ∈ readConf parse conf, ∀ json' ∈ readConf parse conf', DifferOnlyIn item json json'

/-- Started alike, with the same expression. -/
def SameJob (s s' : DCMScheduler) : Prop :=
  s.startSched = s'.startSched ∧ s.parseData = s'.parseData

/-- The document is read and has a firmware cron. -/
def HasDifdCron (parse : List Char → Option Json) (conf : Option (List Char)) : Prop :=
  ∃ json ∈ readConf parse conf, (cJSONGetObjectItem json dcmDifdCron).isSome

/-- The pattern in a document, which is empty unless the member is a text. -/
def cronOf (json : Json) (item : List Char) : List Char :=
  match cJSONGetObjectItem json item with
  | some (.string valuestring) => valuestring.takeWhile (· ≠ nul)
  | _ => []

/-- The job is already as the pattern would start it. -/
def StartedAs (s : DCMScheduler) (pattern : List Char) : Prop :=
  dcmCronParseExp pattern s.parseData = (s.startSched, s.parseData)

/-- Both documents have a firmware cron or neither has, or else the job is already as the one that
has it would start it by this member. -/
def SchedulesAlike (parse : List Char → Option Json) (item : List Char) (s : DCMScheduler)
    (conf conf' : Option (List Char)) : Prop :=
  (HasDifdCron parse conf ↔ HasDifdCron parse conf') ∨
    ∃ json, (json ∈ readConf parse conf ∨ json ∈ readConf parse conf') ∧
      (cJSONGetObjectItem json dcmDifdCron).isSome ∧ StartedAs s (cronOf json item)

variable {parse : List Char → Option Json} {d d₁ d₂ : Schedules} {s : DCMScheduler}
  {conf conf' : Option (List Char)} {json json' : Json} {item key : List Char}

/-! ### Lookups -/

lemma DifferOnlyIn.getObjectItem (h : DifferOnlyIn item json json')
    (hkey : key.map Char.toLower ≠ item.map Char.toLower) :
    cJSONGetObjectItem json key = cJSONGetObjectItem json' key := by
  have hfind (js : Json) : (js.find? fun m => m.1.map Char.toLower = key.map Char.toLower) =
      (js.filter fun m => m.1.map Char.toLower ≠ item.map Char.toLower).find?
        fun m => m.1.map Char.toLower = key.map Char.toLower := by
    rw [List.find?_filter]
    congr 1
    funext m
    by_cases hm : m.1.map Char.toLower = key.map Char.toLower
    · simp [hm, hkey]
    · simp [hm]
  rw [cJSONGetObjectItem, cJSONGetObjectItem, hfind, hfind json', h]

lemma str_of_strcpy {n : ℕ} {b b' : CBuffer n} {s : List Char} (h : b.strcpy s = some b') :
    b'.str = s.takeWhile (· ≠ nul) := by
  obtain ⟨hlen, rfl⟩ : s.length < n ∧ b.snprintf s = b' := by simpa [CBuffer.strcpy] using h
  exact b.str_snprintf_eq hlen

/-- A lookup of a cron returns whether the member is there, and leaves its pattern. -/
lemma readCron_eq {n : ℕ} {b : CBuffer n} {v : Bool × CBuffer n}
    (h : readCron json item b = some v) :
    v.1 = (cJSONGetObjectItem json item).isSome ∧ v.2.str = cronOf json item := by
  obtain ⟨val, hval, h⟩ := Option.bind_eq_some_iff.mp h
  obtain ⟨b₀, hb₀, hval⟩ := Option.bind_eq_some_iff.mp hval
  have hempty {w : Bool × CBuffer n} {b₁ : CBuffer n} {r : Bool}
      (hw : (b₁.strcpy []).map (r, ·) = some w) : w.1 = r ∧ w.2.str = [] := by
    obtain ⟨b₂, hb₂, rfl⟩ := Option.map_eq_some_iff.mp hw
    exact ⟨rfl, str_of_strcpy hb₂⟩
  cases hitem : cJSONGetObjectItem json item with
  | none =>
    simp only [hitem, Option.some.injEq] at hval
    subst hval
    simpa [cronOf, hitem] using hempty h
  | some member =>
    simp only [hitem] at hval
    cases member with
    | string valuestring =>
      obtain ⟨b₁, hb₁, rfl⟩ := Option.map_eq_some_iff.mp hval
      obtain rfl : (true, b₁) = v := by simpa using h
      exact ⟨rfl, by simp [cronOf, hitem, str_of_strcpy hb₁]⟩
    | _ =>
      simp only [Option.some.injEq] at hval
      subst hval
      simpa [cronOf, hitem] using hempty h

/-! ### One turn -/

/-- What a turn does to the job with this member: it is started again, or left alone. -/
def Turn (parse : List Char → Option Json) (item : List Char) (conf : Option (List Char))
    (s s' : DCMScheduler) : Prop :=
  (∃ json ∈ readConf parse conf, (cJSONGetObjectItem json dcmDifdCron).isSome ∧
      s' = (dcmSchedStartJob s (some (cronOf json item))).2) ∨
    ¬HasDifdCron parse conf ∧ s' = s

lemma applyConf_crons {s : Settings} {o : ParseOutcome} (h : applyConf s json = some o) :
    o.ret = (cJSONGetObjectItem json dcmDifdCron).isSome ∧
      o.settings.logCron.str = cronOf json dcmLogUploadCron ∧
      o.settings.difdCron.str = cronOf json dcmDifdCron := by
  simp only [applyConf, bind, pure, Option.bind_eq_some_iff] at h
  obtain ⟨prtl, -, url, -, zone, -, check, -, logCron, hlog, difdCron, hdifd, h⟩ := h
  obtain rfl := Option.some.inj h
  exact ⟨(readCron_eq hdifd).1, (readCron_eq hlog).2, (readCron_eq hdifd).2⟩

lemma turn_of_processConf (h : processConf parse d conf = some d₁) :
    Turn parse dcmLogUploadCron conf d.pLogSchedHandle d₁.pLogSchedHandle ∧
      Turn parse dcmDifdCron conf d.pDifdSchedHandle d₁.pDifdSchedHandle := by
  obtain ⟨o, ho, rfl⟩ := Option.map_eq_some_iff.mp h
  obtain ⟨read, hread, ho⟩ := Option.bind_eq_some_iff.mp ho
  have hconf : readConf parse conf = read := by simp [readConf, hread]
  cases read with
  | none =>
    obtain rfl := Option.some.inj ho
    have hno : ¬HasDifdCron parse conf := by simp [HasDifdCron, hconf]
    exact ⟨Or.inr ⟨hno, rfl⟩, Or.inr ⟨hno, rfl⟩⟩
  | some json =>
    obtain ⟨hret, hlog, hdifd⟩ := applyConf_crons ho
    by_cases hr : o.ret
    · rw [if_pos hr, hlog, hdifd]
      rw [hr] at hret
      exact ⟨Or.inl ⟨json, hconf, hret.symm, rfl⟩, Or.inl ⟨json, hconf, hret.symm, rfl⟩⟩
    · rw [if_neg hr]
      have hno : ¬HasDifdCron parse conf := by simpa [HasDifdCron, hconf, hret] using hr
      exact ⟨Or.inr ⟨hno, rfl⟩, Or.inr ⟨hno, rfl⟩⟩

lemma sameJob_start_iff {pattern : List Char} :
    SameJob (dcmSchedStartJob s (some pattern)).2 s ↔ StartedAs s pattern := by
  simp only [SameJob, StartedAs, dcmSchedStartJob, Prod.ext_iff]
  by_cases h : (dcmCronParseExp pattern s.parseData).1 <;> simp [h]

lemma SameJob.symm {s s' : DCMScheduler} (h : SameJob s s') : SameJob s' s := ⟨h.1.symm, h.2.symm⟩

lemma SchedulesAlike.symm (h : SchedulesAlike parse item s conf conf') :
    SchedulesAlike parse item s conf' conf := by
  rcases h with h | ⟨json, hread, h⟩
  · exact Or.inl h.symm
  · exact Or.inr ⟨json, hread.symm, h⟩

/-- Two turns from the same job, with documents that have the same pattern. -/
lemma sameJob_iff {s₁ s₂ : DCMScheduler} (h₁ : Turn parse item conf s s₁)
    (h₂ : Turn parse item conf' s s₂)
    (hsame : ∀ json ∈ readConf parse conf, ∀ json' ∈ readConf parse conf',
      cronOf json item = cronOf json' item) :
    SameJob s₁ s₂ ↔ SchedulesAlike parse item s conf conf' := by
  have honly {conf conf' : Option (List Char)} {json : Json} {s₁ : DCMScheduler}
      (hread : json ∈ readConf parse conf) (hdifd : (cJSONGetObjectItem json dcmDifdCron).isSome)
      (hs₁ : s₁ = (dcmSchedStartJob s (some (cronOf json item))).2)
      (hno : ¬HasDifdCron parse conf') :
      SameJob s₁ s ↔ SchedulesAlike parse item s conf conf' := by
    rw [hs₁, sameJob_start_iff]
    constructor
    · intro h
      exact Or.inr ⟨json, Or.inl hread, hdifd, h⟩
    · rintro (h | ⟨json', hread' | hread', hdifd', h⟩)
      · exact absurd (h.mp ⟨json, hread, hdifd⟩) hno
      · rwa [Option.mem_unique hread hread']
      · exact absurd ⟨json', hread', hdifd'⟩ hno
  rcases h₁ with ⟨json, hread, hdifd, hs₁⟩ | ⟨hno, rfl⟩ <;>
    rcases h₂ with ⟨json', hread', hdifd', hs₂⟩ | ⟨hno', rfl⟩
  · rw [hs₁, hs₂, hsame json hread json' hread']
    exact ⟨fun _ => Or.inl (iff_of_true ⟨json, hread, hdifd⟩ ⟨json', hread', hdifd'⟩),
      fun _ => ⟨rfl, rfl⟩⟩
  · exact honly hread hdifd hs₁ hno'
  · rw [show SameJob s₁ s₂ ↔ SameJob s₂ s₁ from ⟨SameJob.symm, SameJob.symm⟩,
      honly hread' hdifd' hs₂ hno]
    exact ⟨SchedulesAlike.symm, SchedulesAlike.symm⟩
  · exact ⟨fun _ => Or.inl (iff_of_false hno hno'), fun _ => ⟨rfl, rfl⟩⟩

lemma ConfsDifferOnlyIn.cronOf (h : ConfsDifferOnlyIn parse item conf conf')
    (hkey : key.map Char.toLower ≠ item.map Char.toLower) :
    ∀ json ∈ readConf parse conf, ∀ json' ∈ readConf parse conf',
      cronOf json key = cronOf json' key := by
  intro json hread json' hread'
  simp only [Daemon.cronOf, (h json hread json' hread').getObjectItem hkey]

lemma toLower_crons_ne :
    dcmLogUploadCron.map Char.toLower ≠ dcmDifdCron.map Char.toLower := by decide

/-! ### Both schedules -/

/-- **Independence of the schedules.** With documents that differ only in the cron of one job, a
turn leaves the other job in the same state exactly when both documents have a firmware cron or
neither has, or the job is already as the one that has it would start it. -/
theorem sameJob_iff_schedulesAlike (parse : List Char → Option Json) (d d₁ d₂ : Schedules)
    (conf conf' : Option (List Char)) (h₁ : processConf parse d conf = some d₁)
    (h₂ : processConf parse d conf' = some d₂) :
    (ConfsDifferOnlyIn parse dcmDifdCron conf conf' →
        (SameJob d₁.pLogSchedHandle d₂.pLogSchedHandle ↔
          SchedulesAlike parse dcmLogUploadCron d.pLogSchedHandle conf conf')) ∧
      (ConfsDifferOnlyIn parse dcmLogUploadCron conf conf' →
        (SameJob d₁.pDifdSchedHandle d₂.pDifdSchedHandle ↔
          SchedulesAlike parse dcmDifdCron d.pDifdSchedHandle conf conf')) := by
  constructor
  · intro h
    exact sameJob_iff (turn_of_processConf h₁).1 (turn_of_processConf h₂).1
      (h.cronOf toLower_crons_ne)
  · intro h
    exact sameJob_iff (turn_of_processConf h₁).2 (turn_of_processConf h₂).2
      (h.cronOf toLower_crons_ne.symm)

/-- The text of a document with these members, and what it parses to. -/
def cronsConf (crons : List (List Char × List Char)) : List Char :=
  '{' :: [','].intercalate (crons.map fun m => '"' :: m.1 ++ '"' :: ':' :: '"' :: m.2 ++ ['"']) ++
    ['}']

def nightly : List Char := "0 3 * * *".toList

/-- A log cron with a firmware cron, without one, and with another one. -/
def bothCrons : List (List Char × List Char) :=
  [(dcmLogUploadCron, nightly), (dcmDifdCron, "0 4 * * *".toList)]

def onlyLogCron : List (List Char × List Char) := [(dcmLogUploadCron, nightly)]

def otherDifdCron : List (List Char × List Char) :=
  [(dcmLogUploadCron, nightly), (dcmDifdCron, "garbage".toList)]

/-- A parser for these documents. -/
def parseCronsConf (line : List Char) : Option Json :=
  ([bothCrons, onlyLogCron, otherDifdCron].find? fun crons => cronsConf crons = line).map
    fun crons => crons.map fun m => (m.1, .string m.2)

/-- The daemon before its first document. -/
def bootSchedules : Schedules where
  settings := dcmSettingsInit (.fill _ nul)
  pLogSchedHandle := dcmSchedAddJob 0 true
  pDifdSchedHandle := dcmSchedAddJob 0 true

/-- A firmware cron that is refused does not keep the log upload from its schedule. -/
theorem refused_difdCron_keeps_logCron :
    ∃ d₁ ∈ processConf parseCronsConf bootSchedules (some (cronsConf bothCrons)),
      ∃ d₂ ∈ processConf parseCronsConf bootSchedules (some (cronsConf otherDifdCron)),
        d₁.pDifdSchedHandle.startSched = true ∧ d₂.pDifdSchedHandle.startSched = false ∧
          SameJob d₁.pLogSchedHandle d₂.pLogSchedHandle := by
  have hrun : ∃ d₁ ∈ processConf parseCronsConf bootSchedules (some (cronsConf bothCrons)),
      ∃ d₂ ∈ processConf parseCronsConf bootSchedules (some (cronsConf otherDifdCron)),
        d₁.pDifdSchedHandle.startSched = true ∧ d₂.pDifdSchedHandle.startSched = false := by
    decide +kernel
  obtain ⟨d₁, h₁, d₂, h₂, hs₁, hs₂⟩ := hrun
  refine ⟨d₁, h₁, d₂, h₂, hs₁, hs₂, ?_⟩
  apply ((sameJob_iff_schedulesAlike _ _ d₁ d₂ _ _ h₁ h₂).1 ?_).mpr
  · have hboth : (∃ json ∈ readConf parseCronsConf (some (cronsConf bothCrons)),
        (cJSONGetObjectItem json dcmDifdCron).isSome) ∧
        ∃ json ∈ readConf parseCronsConf (some (cronsConf otherDifdCron)),
          (cJSONGetObjectItem json dcmDifdCron).isSome := by
      decide +kernel
    exact Or.inl (iff_of_true hboth.1 hboth.2)
  · have hsame : ∀ json ∈ readConf parseCronsConf (some (cronsConf bothCrons)),
        ∀ json' ∈ readConf parseCronsConf (some (cronsConf otherDifdCron)),
          DifferOnlyIn dcmDifdCron json json' := by
      decide +kernel
    exact hsame

/-- The same log cron, once with a firmware cron and once without: the log upload is scheduled
once. -/
theorem missing_difdCron_drops_logCron :
    (∃ json ∈ readConf parseCronsConf (some (cronsConf bothCrons)),
      ∃ json' ∈ readConf parseCronsConf (some (cronsConf onlyLogCron)),
        DifferOnlyIn dcmDifdCron json json') ∧
    ∃ d₁ ∈ processConf parseCronsConf bootSchedules (some (cronsConf bothCrons)),
      ∃ d₂ ∈ processConf parseCronsConf bootSchedules (some (cronsConf onlyLogCron)),
        d₁.pLogSchedHandle.startSched = true ∧ d₂.pLogSchedHandle.startSched = false := by
  decide +kernel

end DcmAgent.Daemon
