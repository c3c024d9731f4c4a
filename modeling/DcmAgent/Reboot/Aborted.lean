import Mathlib.Tactic
import DcmAgent.Reboot.Workflow

/-!
# Aborted runs

The setup of the reboot strategy gives up early when the logs are not complete yet or there are
none, so that a later run finds them. The cleanup phase runs all the same. It leaves the logs alone
as long as no earlier run of the process has stored the path of a permanent backup, and no name
looks like one with a timestamp.
-/

namespace DcmAgent.Reboot

open Library
open Archive (maxPathLength)

/-! ### Earlier runs of the process -/

/-- What the setup of the DCM strategy meets. -/
structure DcmEnv where
  createsDirectory : Bool
  uploadFlag : Bool
  dirExists : Bool
  timestamp : Option (List Char)
  deriving DecidableEq, Repr

/-- What is left in the static variables. -/
def dcmSetup (env : DcmEnv) (statics : Statics) : ℤ × Statics :=
  if ¬env.createsDirectory then (-1, statics)
  else if ¬env.uploadFlag then (-1, statics)
  else (0, storeTimestamp env.dirExists env.timestamp statics)

/-- What `uploadlogsnow` meets. -/
structure NowEnv where
  createsDirectory : Bool
  copiedFiles : ℤ
  dirExists : Bool
  timestamp : Option (List Char)
  deriving DecidableEq, Repr

def uploadlogsnowStatics (env : NowEnv) (statics : Statics) : Statics :=
  if ¬env.createsDirectory then statics
  else if env.copiedFiles < 0 then statics
  else if env.copiedFiles = 0 then statics
  else storeTimestamp env.dirExists env.timestamp statics

/-- A run of the process; the others touch neither of the static variables. -/
inductive EarlierRun where
  | reboot (env : Env) (prev : Option (Directory Node)) (backups : List Char → Directory Node)
  | dcm (env : DcmEnv)
  | uploadlogsnow (env : NowEnv)
  | other

def EarlierRun.statics : EarlierRun → Statics → Statics
  | .reboot env prev backups, statics => (rebootWorkflow env statics prev backups).2.statics
  | .dcm env, statics => (dcmSetup env statics).2
  | .uploadlogsnow env, statics => uploadlogsnowStatics env statics
  | .other, statics => statics

/-- The static variables that a run finds. -/
def staticsAfter (earlier : List EarlierRun) : Statics :=
  earlier.foldl (fun statics r => r.statics statics) .init

/-- The run gets as far as to the path of its permanent backup. -/
def EarlierRun.StoresPath : EarlierRun → Prop
  | .reboot env prev _ => env.backupLogsDone ∧
      (∃ d, prev = some d ∧ hasLogFiles d) ∧
      ∃ timestamp, env.permTimestamp = some timestamp ∧ Fits env.logPath timestamp
  | _ => False

variable {env : Env} {d : Directory Node} {earlier : List EarlierRun} {n m : Name}

lemma statics_rebootCleanup (env : Env) (b : Bool) (s : State) :
    (rebootCleanup env b s).2.statics = s.statics := by
  obtain ⟨statics, prev, backups, archiveFile⟩ := s
  rw [rebootCleanup]
  by_cases hcreate : ¬createDirectory env statics.permLogPath
  · rw [if_pos hcreate]
  · rw [if_neg hcreate]
    cases prev <;> rfl

/-- The later phases leave the static variables alone. -/
lemma statics_rebootWorkflow (env : Env) (statics : Statics) (prev : Option (Directory Node))
    (backups : List Char → Directory Node) :
    (rebootWorkflow env statics prev backups).2.statics =
      (rebootSetup env (State.cleanupOldArchives env ⟨statics, prev, backups, []⟩)).2.statics := by
  rw [rebootWorkflow, executeStrategyWorkflow_snd]
  generalize State.cleanupOldArchives env ⟨statics, prev, backups, []⟩ = s
  exact (statics_rebootCleanup env (runPhases (rebootStrategyHandler env) s).2.1 _).trans
    (runPhases_preserves (rebootStrategyHandler env) State.statics (statics_rebootArchive env)
      (statics_rebootUpload env) s)

/-- The path that the setup leaves. -/
lemma permLogPath_rebootSetup (env : Env) (s : State) :
    (rebootSetup env s).2.statics.permLogPath =
      match env.backupLogsDone, s.prev, env.permTimestamp with
      | true, some d, some timestamp =>
        if hasLogFiles d ∧ Fits env.logPath timestamp then pathOf env.logPath timestamp
        else s.statics.permLogPath
      | _, _, _ => s.statics.permLogPath := by
  obtain ⟨statics, prev, backups, archiveFile⟩ := s
  rw [rebootSetup]
  cases env.backupLogsDone with
  | false => rfl
  | true =>
    cases prev with
    | none => rfl
    | some d =>
      cases env.permTimestamp with
      | none =>
        by_cases hlogs : hasLogFiles d <;> simp [hlogs]
      | some timestamp =>
        by_cases hlogs : hasLogFiles d
        · by_cases hfits : Fits env.logPath timestamp
          · simp only [hlogs, hfits]
            simp only [not_true_eq_false, if_false, and_self, if_true]
            by_cases h₁ : Fits env.telemetryPath "lastlog_path".toList
            · by_cases h₂ : Fits env.prevLogPath "logs.tar.gz".toList
              · rw [if_neg (not_not.mpr h₁), if_neg (not_not.mpr h₂)]
                exact permLogPath_storeTimestamp _ _ _
              · rw [if_neg (not_not.mpr h₁), if_pos h₂]
            · rw [if_pos h₁]
          · simp [hlogs, hfits]
        · simp [hlogs]

lemma pathOf_ne_nil (dir name : List Char) : pathOf dir name ≠ [] := by
  simp [pathOf]

lemma permLogPath_statics (r : EarlierRun) (statics : Statics) :
    (r.statics statics).permLogPath = [] ↔ statics.permLogPath = [] ∧ ¬r.StoresPath := by
  cases r with
  | reboot env prev backups =>
    rw [EarlierRun.statics, statics_rebootWorkflow, permLogPath_rebootSetup]
    simp only [EarlierRun.StoresPath, State.cleanupOldArchives]
    cases env.backupLogsDone with
    | false => simp
    | true =>
      cases prev with
      | none => simp
      | some d =>
        cases env.permTimestamp with
        | none => simp
        | some timestamp =>
          by_cases hstores : hasLogFiles d ∧ Fits env.logPath timestamp
          · simp [hasLogFiles_cleanupOldArchives, hstores, pathOf_ne_nil]
          · simp [hasLogFiles_cleanupOldArchives, hstores]
  | dcm env =>
    simp only [EarlierRun.statics, EarlierRun.StoresPath, dcmSetup, not_false_eq_true, and_true]
    split_ifs <;> simp
  | uploadlogsnow env =>
    simp only [EarlierRun.statics, EarlierRun.StoresPath, uploadlogsnowStatics, not_false_eq_true,
      and_true]
    split_ifs <;> simp
  | other => simp [EarlierRun.statics, EarlierRun.StoresPath]

/-- A path has been stored exactly if some run has got that far. -/
theorem permLogPath_staticsAfter :
    (staticsAfter earlier).permLogPath = [] ↔ ∀ r ∈ earlier, ¬r.StoresPath := by
  have h : ∀ statics : Statics, (earlier.foldl (fun statics r => r.statics statics)
      statics).permLogPath = [] ↔ statics.permLogPath = [] ∧ ∀ r ∈ earlier, ¬r.StoresPath := by
    induction earlier with
    | nil => simp
    | cons r earlier ih =>
      intro statics
      rw [List.foldl_cons, ih, permLogPath_statics, List.forall_mem_cons, and_assoc]
  rw [staticsAfter, h]
  simp [Statics.init]

/-! ### What is to hold -/

/-- The setup fails before it changes anything: the logs are not complete, or there are none. -/
def AbortsEarly (env : Env) (prev : Option (Directory Node)) : Prop :=
  env.backupLogsDone = false ∨ ∀ d, prev = some d → hasLogFiles d = false

/-- The directory after a run in a process with earlier runs. -/
def prevAfter (earlier : List EarlierRun) (env : Env) (prev : Option (Directory Node))
    (backups : List Char → Directory Node) : Option (Directory Node) :=
  (rebootWorkflow env (staticsAfter earlier) prev backups).2.prev

/-- The run changes nothing but stale archives. -/
def LeavesLogs (earlier : List EarlierRun) (env : Env) (prev : Option (Directory Node))
    (backups : List Char → Directory Node) : Prop :=
  Option.Rel Directory.Same (prevAfter earlier env prev backups)
    (prev.map (cleanupOldArchives env.unlinks []))

/-- An entry is renamed back. -/
def RenamesBack (env : Env) (timestampPrefix : List Char) (d : Directory Node) (n : Name) : Prop :=
  n ∈ d.names ∧ env.readdir .removeTimestamp d ≠ none ∧
    originalName env timestampPrefix n ≠ none ∧ env.renames .removeTimestamp n = true

/-- An entry is moved away or removed. -/
def TakesAway (env : Env) (permLogPath : List Char) (d : Directory Node) (n : Name) : Prop :=
  n ∈ d.names ∧
    (env.readdir .move d ≠ none ∧ Moves env permLogPath n ∨ env.clears n = true)

/-- No name is cut, and no permanent backup is made. -/
structure KeepsLogs (earlier : List EarlierRun) (env : Env) (d : Directory Node) : Prop where
  names : ∀ n, ¬RenamesBack env (staticsAfter earlier).timestampPrefix d n
  entries : (∀ r ∈ earlier, ¬r.StoresPath) ∨ env.createsDirectory = false ∨
    ∀ n, ¬TakesAway env (staticsAfter earlier).permLogPath d n

/-! ### The loops of the cleanup phase -/

lemma length_originalName {timestampPrefix : List Char}
    (h : originalName env timestampPrefix n = some m) : m.length < n.length := by
  unfold originalName at h
  split_ifs at h
  split at h
  · cases h
  · rename_i cut _
    split_ifs at h with hcut
    obtain rfl := Option.some.inj h
    rw [List.length_drop]
    omega

/-- Renaming to shorter names. -/
lemma shrinks_renameEntry {renames : Name → Bool} {newName : Name → Option Name}
    (hshort : ∀ n m, newName n = some m → m.length < n.length) :
    Shrinks (renameEntry renames newName)
      (fun d n => n ∈ d.names ∧ newName n ≠ none ∧ renames n = true) Directory.weight where
  idle := by
    intro d n hidle
    unfold renameEntry
    split
    · rfl
    · rename_i m hm
      split_ifs with hren
      · exact Directory.rename_eq_self fun hmem => hidle ⟨hmem, by simp [hm], hren⟩
      · rfl
  shrink := by
    rintro d n ⟨hmem, hne, hren⟩
    obtain ⟨m, hm⟩ := Option.ne_none_iff_exists'.mp hne
    rw [renameEntry, hm]
    simp only [hren, if_true]
    exact Directory.weight_rename_lt hmem (hshort n m hm)

lemma shrinks_moveEntry (env : Env) (permLogPath : List Char) :
    Shrinks (moveEntry env permLogPath)
      (fun dirs n => n ∈ dirs.1.names ∧ Moves env permLogPath n) fun dirs => dirs.1.weight where
  idle := by
    intro dirs n hidle
    unfold moveEntry
    split
    · rfl
    · rename_i x hx
      refine if_neg fun hmoves => hidle ⟨?_, hmoves⟩
      by_contra hno
      rw [Directory.lookup_eq_none_iff.mpr hno] at hx
      cases hx
  shrink := by
    rintro dirs n ⟨hmem, hmoves⟩
    unfold moveEntry
    split
    · rename_i hnone
      exact absurd hmem (Directory.lookup_eq_none_iff.mp hnone)
    · rw [if_pos hmoves]
      obtain ⟨y, hy⟩ := Directory.mem_names_iff.mp hmem
      have := Directory.weight_filter_add_le (fun p => decide (p.1 ≠ n)) hy (by simp)
      simp only [Directory.remove]
      omega

/-- Renaming back changes nothing, or it makes the directory smaller. -/
lemma removeTimestampFromFiles_spec (env : Env) (statics : Statics) (d : Directory Node) :
    ((∀ n, ¬RenamesBack env statics.timestampPrefix d n) →
        removeTimestampFromFiles env statics d = d) ∧
      ((∃ n, RenamesBack env statics.timestampPrefix d n) →
        (removeTimestampFromFiles env statics d).weight < d.weight) := by
  have hshrinks := @shrinks_renameEntry (env.renames .removeTimestamp)
    (originalName env statics.timestampPrefix) fun _ _ => length_originalName
  rw [removeTimestampFromFiles, renameEach]
  cases hread : env.readdir .removeTimestamp d with
  | none =>
    refine ⟨fun _ => rfl, ?_⟩
    rintro ⟨n, -, hne, -⟩
    exact absurd hread hne
  | some entries =>
    have hne : env.readdir .removeTimestamp d ≠ none := by simp [hread]
    constructor
    · intro hno
      refine hshrinks.foldl_eq fun n _ => ?_
      rintro ⟨hmem, hname, hren⟩
      exact hno n ⟨hmem, hne, hname, hren⟩
    · rintro ⟨n, hmem, -, hname, hren⟩
      exact hshrinks.foldl_lt (env.complete _ d entries n hread hmem) ⟨hmem, hname, hren⟩

/-- The directory after the logs have been moved away and it has been wiped. -/
def wiped (env : Env) (permLogPath : List Char) (d backup : Directory Node) : Directory Node :=
  cleanDirectory env (moveDirectoryContents env permLogPath d backup).1

/-- Wiping changes nothing, or it makes the directory smaller. -/
lemma wiped_spec (env : Env) (permLogPath : List Char) (d backup : Directory Node) :
    ((∀ n, ¬TakesAway env permLogPath d n) → wiped env permLogPath d backup = d) ∧
      ((∃ n, TakesAway env permLogPath d n) →
        (wiped env permLogPath d backup).weight < d.weight) := by
  have hshrinks := shrinks_moveEntry env permLogPath
  have hclean : ∀ d' : Directory Node, (cleanDirectory env d').weight ≤ d'.weight :=
    fun d' => Directory.weight_filter_le _ d'
  have hcleared : ∀ n ∈ d.names, env.clears n = true →
      (cleanDirectory env d).weight < d.weight := by
    intro n hmem hclears
    obtain ⟨x, hx⟩ := Directory.mem_names_iff.mp hmem
    have := Directory.weight_filter_add_le (fun p => decide ¬env.clears p.1 = true) hx
      (by simp [hclears])
    rw [cleanDirectory]
    omega
  have hkept : (∀ n ∈ d.names, env.clears n = false) → cleanDirectory env d = d := by
    intro hno
    refine List.filter_eq_self.mpr fun p hp => ?_
    simp [hno p.1 (Directory.mem_names_iff.mpr ⟨p.2, hp⟩)]
  rw [wiped, moveDirectoryContents]
  cases hread : env.readdir .move d with
  | none =>
    constructor
    · intro hno
      exact hkept fun n hn => Bool.not_eq_true _ ▸ fun hc => hno n ⟨hn, Or.inr hc⟩
    · rintro ⟨n, hmem, ⟨hne, -⟩ | hclears⟩
      · exact absurd hread hne
      · exact hcleared n hmem hclears
  | some entries =>
    have hne : env.readdir .move d ≠ none := by simp [hread]
    have hstay : (∀ n ∈ d.names, ¬Moves env permLogPath n) →
        entries.foldl (moveEntry env permLogPath) (d, backup) = (d, backup) := fun hno =>
      hshrinks.foldl_eq fun n _ hacts => hno n hacts.1 hacts.2
    dsimp only
    constructor
    · intro hno
      rw [hstay fun n hn hmoves => hno n ⟨hn, Or.inl ⟨hne, hmoves⟩⟩]
      exact hkept fun n hn => Bool.not_eq_true _ ▸ fun hc => hno n ⟨hn, Or.inr hc⟩
    · rintro ⟨n, hmem, htakes⟩
      by_cases hmoves : ∃ n ∈ d.names, Moves env permLogPath n
      · obtain ⟨k, hk, hmoves⟩ := hmoves
        have hlt := hshrinks.foldl_lt (s := (d, backup)) (env.complete _ d entries k hread hk)
          ⟨hk, hmoves⟩
        exact (hclean _).trans_lt hlt
      · push Not at hmoves
        rw [hstay hmoves]
        exact hcleared n hmem (htakes.resolve_left fun h => hmoves n hmem h.2)

/-! ### Aborted runs -/

/-- An aborted setup leaves everything to the cleanup phase. -/
lemma rebootSetup_of_abortsEarly {s : State} {prev : Option (Directory Node)}
    (habort : AbortsEarly env prev) (hs : s.prev = prev.map (cleanupOldArchives env.unlinks [])) :
    rebootSetup env s = (-1, s) := by
  unfold rebootSetup
  rcases habort with hdone | hlogs
  · rw [if_pos (by simp [hdone])]
  · by_cases hdone : ¬env.backupLogsDone
    · rw [if_pos hdone]
    · rw [if_neg hdone, hs]
      cases prev with
      | none => rfl
      | some d =>
        rw [Option.map_some]
        dsimp only
        rw [if_pos (by simp [hasLogFiles_cleanupOldArchives, hlogs d rfl])]

/-- What is left of the directory after an aborted run. -/
lemma prevAfter_of_abortsEarly {prev : Option (Directory Node)}
    {backups : List Char → Directory Node} (habort : AbortsEarly env prev) :
    prevAfter earlier env prev backups =
      (prev.map (cleanupOldArchives env.unlinks [])).map fun d =>
        let d := removeTimestampFromFiles env (staticsAfter earlier) d
        let permLogPath := (staticsAfter earlier).permLogPath
        if createDirectory env permLogPath then wiped env permLogPath d (backups permLogPath)
        else d := by
  obtain ⟨s, hs⟩ :
      ∃ s, s = State.cleanupOldArchives env ⟨staticsAfter earlier, prev, backups, []⟩ := ⟨_, rfl⟩
  have hsetup : rebootSetup env s = (-1, s) := rebootSetup_of_abortsEarly habort (by rw [hs]; rfl)
  have hphases : runPhases (rebootStrategyHandler env) s = (-1, false, s) := by
    have h : ((rebootStrategyHandler env).setupPhase s) = (-1, s) := hsetup
    rw [runPhases_of_setup (by rw [h]; simp), h]
  rw [prevAfter, rebootWorkflow, executeStrategyWorkflow_snd, ← hs, hphases]
  change (rebootCleanup env false s).2.prev = _
  have hnot : ¬env.prevLogPath ++ ['/'] <+: ([] : List Char) := by simp
  rw [hs, State.cleanupOldArchives, rebootCleanup]
  cases prev with
  | none =>
    by_cases hcreate : ¬createDirectory env (staticsAfter earlier).permLogPath
    · simp [hcreate]
    · simp [hcreate]
  | some d =>
    by_cases hcreate : createDirectory env (staticsAfter earlier).permLogPath
    · simp [hcreate, removeArchive, wiped]
    · simp [hcreate, removeArchive]

lemma createDirectory_staticsAfter :
    createDirectory env (staticsAfter earlier).permLogPath = true ↔
      (∃ r ∈ earlier, r.StoresPath) ∧ env.createsDirectory = true := by
  rw [createDirectory, decide_eq_true_iff, ne_eq, permLogPath_staticsAfter]
  push Not
  rfl

lemma weight_wiped_le (env : Env) (permLogPath : List Char) (d backup : Directory Node) :
    (wiped env permLogPath d backup).weight ≤ d.weight := by
  obtain ⟨heq, hlt⟩ := wiped_spec env permLogPath d backup
  by_cases h : ∃ n, TakesAway env permLogPath d n
  · exact (hlt h).le
  · rw [heq (not_exists.mp h)]

/-- An aborted run leaves the logs alone exactly if no name is cut, and no permanent backup is
made. -/
theorem leavesLogs_iff {prev : Option (Directory Node)} {backups : List Char → Directory Node}
    (habort : AbortsEarly env prev) :
    LeavesLogs earlier env prev backups ↔
      ∀ d, prev = some d → KeepsLogs earlier env (cleanupOldArchives env.unlinks [] d) := by
  rw [LeavesLogs, prevAfter_of_abortsEarly habort]
  cases prev with
  | none => simp
  | some d =>
    generalize hc : cleanupOldArchives env.unlinks [] d = c
    obtain ⟨hsame, hless⟩ := removeTimestampFromFiles_spec env (staticsAfter earlier) c
    simp only [Option.map_some, Option.some.injEq, forall_eq', hc, Option.rel_some_some]
    have hcreate := @createDirectory_staticsAfter env earlier
    constructor
    · intro hrel
      have hweight := hrel.weight
      have hnames : ∀ n, ¬RenamesBack env (staticsAfter earlier).timestampPrefix c n := by
        intro n hn
        have hlt := hless ⟨n, hn⟩
        split_ifs at hweight with h
        · exact absurd hweight (((weight_wiped_le env _ _ _).trans_lt hlt).ne)
        · exact absurd hweight hlt.ne
      refine ⟨hnames, ?_⟩
      rw [hsame hnames] at hweight
      by_cases hcreated : (∃ r ∈ earlier, r.StoresPath) ∧ env.createsDirectory = true
      · rw [if_pos (hcreate.mpr hcreated)] at hweight
        refine Or.inr (Or.inr fun n hn => ?_)
        exact absurd hweight ((wiped_spec env _ c _).2 ⟨n, hn⟩).ne
      · by_cases hstored : ∃ r ∈ earlier, r.StoresPath
        · exact Or.inr (Or.inl (by simpa [hstored] using hcreated))
        · push Not at hstored
          exact Or.inl hstored
    · rintro ⟨hnames, hentries⟩
      rw [hsame hnames]
      by_cases hcreated : (∃ r ∈ earlier, r.StoresPath) ∧ env.createsDirectory = true
      · rw [if_pos (hcreate.mpr hcreated)]
        obtain ⟨⟨r, hr, hstores⟩, hdir⟩ := hcreated
        rcases hentries with hno | hno | hno
        · exact absurd hstores (hno r hr)
        · simp [hno] at hdir
        · rw [(wiped_spec env _ c _).1 hno]
          exact List.Perm.refl c
      · rw [if_neg fun h => hcreated (hcreate.mp h)]
        exact List.Perm.refl c

/-- Every call succeeds. -/
def Env.succeeding (backupLogsDone : Bool) : Env where
  logPath := "/opt/logs".toList
  prevLogPath := "/opt/logs/PreviousLogs".toList
  telemetryPath := "/opt/.telemetry".toList
  unlinks _ := true
  backupLogsDone := backupLogsDone
  expired _ := false
  permTimestamp := some "11-30-25-03-45PM-logbackup".toList
  removesOldTar := true
  backupLogsLog := none
  timestamp := some "11-30-25-03-45PM-".toList
  readdir _ d := some d.names
  complete := by rintro _ _ _ _ ⟨⟩ h; exact h
  renames _ _ := true
  includePcap := false
  opensForPcap := true
  modTime _ := none
  pcapCopy := plainCopy
  archiveName := some "A84A_Logs_11-30-25-03-45PM.tgz".toList
  archive _ := (0, some .other)
  logs := some []
  dcmFlag := 1
  uploadOnReboot := 0
  isScheduledReboot := false
  disableUnscheduledUpload := false
  archiveExists := true
  archiveSize := 1
  uploads := true
  removesArchive := true
  createsDirectory := true
  clears _ := true

/-- The logs of one boot. -/
def messages : Directory Node := [("messages.txt".toList, .regular ['a'])]

lemma cleanupOldArchives_messages (unlinks : List Name → Bool) :
    cleanupOldArchives unlinks [] messages = messages := by
  have h : isOldArchive "messages.txt".toList = false := by decide +kernel
  simp only [messages, cleanupOldArchives, h]
  simp

lemma timestampPrefix_messages : (staticsAfter [.reboot (.succeeding true) (some messages)
    fun _ => []]).timestampPrefix = "11-30-25-03-45PM-".toList := by
  change (rebootWorkflow _ _ _ _).2.statics.timestampPrefix = _
  rw [statics_rebootWorkflow]
  simp only [State.cleanupOldArchives, Option.map_some, cleanupOldArchives_messages]
  rfl

/-- A run has moved the logs of a boot, and the next one cannot create its backup again. -/
theorem leavesLogs_uncreated :
    LeavesLogs [.reboot (.succeeding true) (some messages) fun _ => []]
      { Env.succeeding false with createsDirectory := false } (some messages) fun _ => [] := by
  refine (leavesLogs_iff (Or.inl rfl)).mpr ?_
  rintro d ⟨⟩
  refine ⟨?_, Or.inr (Or.inl rfl)⟩
  rintro n ⟨hmem, -, hname, -⟩
  rw [cleanupOldArchives_messages] at hmem
  obtain rfl : n = "messages.txt".toList := List.mem_singleton.mp hmem
  rw [timestampPrefix_messages] at hname
  exact hname (by decide +kernel)

/-- The logs of a boot are moved to the backup of another one. -/
theorem messages_taken_away :
    AbortsEarly (.succeeding false) (some messages) ∧
      ¬LeavesLogs [.reboot (.succeeding true) (some messages) fun _ => []] (.succeeding false)
        (some messages) fun _ => [] := by
  have habort : AbortsEarly (.succeeding false) (some messages) := Or.inl rfl
  refine ⟨habort, ?_⟩
  have hwiped : ∀ permLogPath d backup, wiped (.succeeding false) permLogPath d backup = [] := by
    intro permLogPath d backup
    have hclears : ∀ n, (Env.succeeding false).clears n = true := fun _ => rfl
    rw [wiped, cleanDirectory, List.filter_eq_nil_iff]
    simp [hclears]
  have hlogs : hasLogFiles messages = true := by decide +kernel
  have hfits : Fits "/opt/logs".toList "11-30-25-03-45PM-logbackup".toList := by decide +kernel
  have hstores : EarlierRun.StoresPath (.reboot (.succeeding true) (some messages) fun _ => []) :=
    ⟨rfl, ⟨messages, rfl, hlogs⟩, _, rfl, hfits⟩
  rw [LeavesLogs, prevAfter_of_abortsEarly habort, Option.map_some, Option.map_some,
    cleanupOldArchives_messages]
  dsimp only
  rw [if_pos (createDirectory_staticsAfter.mpr ⟨⟨_, List.mem_singleton_self _, hstores⟩, rfl⟩),
    hwiped, Option.rel_some_some]
  exact List.not_perm_nil_cons _ _

end DcmAgent.Reboot
