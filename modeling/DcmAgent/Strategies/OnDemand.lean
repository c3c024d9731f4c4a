import Mathlib.Tactic
import DcmAgent.Strategies.Collect

/-!
# The workflow of the on-demand strategy

The logs are copied to `/tmp/log_on_demand`, which is archived, uploaded and removed again. What an
earlier run could not remove, and the setup of this run neither, is archived together with the logs.
-/

namespace DcmAgent.Strategies

open Library
open Reboot (Name Fits pathOf CopyCalls plainCopy isDirectory StrategyHandler
  executeStrategyWorkflow runPhases hasLogFiles)

namespace OnDemand

/-! ### The state -/

/-- `LOG_PATH` and the temporary directory, the archive of the session, the file `lastlog_path`,
and whether the lack of logs has been told. `packed` is the directory that has been archived, `sent`
the one whose archive has been handed to the upload. -/
structure State where
  logs : Option (Directory Node)
  temp : Option (Directory Node)
  archiveFile : Name
  lastlog : List (List Char)
  noLogs : Bool
  packed : Option (Directory Node)
  sent : Option (Directory Node)

def tempDir : List Char := "/tmp/log_on_demand".toList

/-- The paths and the flag of the context, and what the calls of a run return. -/
structure Env where
  logPath : List Char
  telemetryPath : List Char
  flag : Bool
  unlinks : List Name → Bool
  /-- `has_log_files` can open the directory. -/
  opensLogs : Bool
  readdir : Directory Node → Option (List (Name × Node))
  readdir_perm : ∀ d entries, readdir d = some entries → entries.Perm d
  setupRemove : RemoveCalls
  createsTemp : Bool
  copy : CopyCalls
  timestamp : Option (List Char)
  opensLastlog : Bool
  removesOldTar : Bool
  archiveName : Option Name
  /-- The result of the archive, and what is at its path afterwards. -/
  archive : Directory Node → ℤ × Option Node
  upload : ℤ
  removesTar : Bool
  cleanupRemove : RemoveCalls

variable (env : Env)

/-! ### The phases -/

/-- The entries that are copied. -/
def collects (n : Name) (x : Node) : Bool :=
  Strategies.collects env.logPath tempDir shouldCollectFile n x

def collectLogs (logs dest : Directory Node) : ℤ × Directory Node :=
  if env.logPath = [] then (-1, dest)
  else collectFilesFromDir env.copy env.logPath tempDir shouldCollectFile (env.readdir logs) dest

/-- A file of the session in the temporary directory is removed. Without a name the path leads to
the directory itself, which is not empty. -/
def removeTar (removes : Bool) (archiveFile : Name) (d : Directory Node) : Directory Node :=
  if archiveFile ≠ [] ∧ removes then d.remove archiveFile else d

/-- Once the logs have been copied: the path of the permanent backup is told. -/
def announce (s : State) : ℤ × State :=
  match env.timestamp with
  | none => (-1, s)
  | some timestamp =>
    if ¬Fits env.logPath timestamp then (-1, s)
    else if ¬Fits env.telemetryPath "lastlog_path".toList then (-1, s)
    else
      let lastlog :=
        if env.opensLastlog then s.lastlog ++ [pathOf env.logPath timestamp] else s.lastlog
      (0, { s with
        lastlog := lastlog
        temp := s.temp.map (removeTar env.removesOldTar s.archiveFile) })

def ondemandSetup (s : State) : ℤ × State :=
  match s.logs with
  | none => (-1, s)
  | some logs =>
    if ¬(env.opensLogs ∧ hasLogFiles logs) then (-1, { s with noLogs := true })
    else
      match createDirectory env.createsTemp (removeDirectory env.setupRemove s.temp).2 with
      | none => (-1, { s with temp := none })
      | some d =>
        let r := collectLogs env logs d
        let s := { s with temp := some r.2 }
        if r.1 ≤ 0 then (-1, s) else announce env s

/-- `create_archive` in the temporary directory. -/
def ondemandArchive (s : State) : ℤ × State :=
  match s.temp, env.archiveName with
  | some d, some name =>
    let r := env.archive d
    (if r.1 = 0 then 0 else -1, { s with
      temp := some (d.set name r.2)
      archiveFile := if r.1 = 0 then name else s.archiveFile
      packed := some d })
  | _, _ => (-1, s)

def ondemandUpload (s : State) : ℤ × State :=
  if ¬env.flag then (0, s) else (env.upload, { s with sent := s.packed })

def ondemandCleanup (_uploadSuccess : Bool) (s : State) : ℤ × State :=
  let r := removeDirectory env.cleanupRemove (s.temp.map (removeTar env.removesTar s.archiveFile))
  (if r.1 then 0 else -1, { s with temp := r.2 })

def ondemandStrategyHandler : StrategyHandler State where
  setupPhase := ondemandSetup env
  archivePhase := ondemandArchive env
  uploadPhase := ondemandUpload env
  cleanupPhase := ondemandCleanup env

def State.cleanupOldArchives (s : State) : State :=
  { s with logs := s.logs.map (Reboot.cleanupOldArchives env.unlinks []) }

/-- A run that finds the logs and the temporary directory. -/
def State.start (logs temp : Option (Directory Node)) : State :=
  ⟨logs, temp, [], [], false, none, none⟩

def ondemandWorkflow (logs temp : Option (Directory Node)) : ℤ × State :=
  executeStrategyWorkflow (State.cleanupOldArchives env) (ondemandStrategyHandler env)
    (.start logs temp)

/-! ### Runs that follow each other -/

/-- A run and the logs that it finds. -/
structure Run where
  env : Env
  logs : Option (Directory Node)

/-- The temporary directory between the runs. -/
def tempAfter (history : List Run) : Option (Directory Node) :=
  history.foldl (fun temp run => (ondemandWorkflow run.env run.logs temp).2.temp) none

def Has (d : Option (Directory Node)) (n : Name) : Prop := n ∈ (d.getD []).names

/-- The run has an entry with the name among its logs that is to be copied. -/
def Run.Collects (run : Run) (n : Name) : Prop :=
  ∃ logs x, run.logs = some logs ∧ (n, x) ∈ logs ∧ collects run.env n x = true

/-- The name is one of those that the run writes to, and its cleanup does not clear it. -/
def Run.Leaves (run : Run) (n : Name) : Prop :=
  (run.Collects n ∨ run.env.archiveName = some n) ∧ ¬run.env.cleanupRemove.clears n

/-! ### The phases one by one -/

variable {env} {s : State} {logs temp : Option (Directory Node)} {n : Name} {d : Directory Node}

/-- What a setup has done when it succeeds. -/
def SetupDone (env : Env) (s s' : State) : Prop :=
  ∃ l d, s.logs = some l ∧ hasLogFiles l = true ∧
    createDirectory env.createsTemp (removeDirectory env.setupRemove s.temp).2 = some d ∧
    0 < (collectLogs env l d).1 ∧
    s'.temp = some (removeTar env.removesOldTar s.archiveFile (collectLogs env l d).2)

/-- The part of the state that the setup leaves alone. -/
def State.frame (s : State) : Option (Directory Node) × Name × Option (Directory Node) ×
    Option (Directory Node) := (s.logs, s.archiveFile, s.packed, s.sent)

/-- How a setup can end. -/
inductive SetupRule (env : Env) (s : State) : ℤ × State → Prop where
  | early (s') (h : s'.temp = s.temp) (hframe : s'.frame = s.frame) : SetupRule env s (-1, s')
  | uncreated (s') (h : s'.temp = none) (hframe : s'.frame = s.frame) : SetupRule env s (-1, s')
  | copied (s' l d) (hl : s.logs = some l)
      (hd : createDirectory env.createsTemp (removeDirectory env.setupRemove s.temp).2 = some d)
      (h : s'.temp = some (collectLogs env l d).2) (hframe : s'.frame = s.frame) :
      SetupRule env s (-1, s')
  | done (s') (h : SetupDone env s s') (hframe : s'.frame = s.frame) : SetupRule env s (0, s')

variable (env s) in
lemma SetupRule.of_ondemandSetup : SetupRule env s (ondemandSetup env s) := by
  obtain ⟨logs, temp, archiveFile, lastlog, noLogs, packed, sent⟩ := s
  rw [ondemandSetup]
  cases logs with
  | none => exact .early _ rfl rfl
  | some l =>
    dsimp only
    by_cases hlogs : ¬(env.opensLogs ∧ hasLogFiles l)
    · rw [if_pos hlogs]
      exact .early _ rfl rfl
    rw [if_neg hlogs]
    cases hcreate : createDirectory env.createsTemp (removeDirectory env.setupRemove temp).2 with
    | none => exact .uncreated _ rfl rfl
    | some d =>
      dsimp only
      by_cases hcount : (collectLogs env l d).1 ≤ 0
      · rw [if_pos hcount]
        exact .copied _ l d rfl hcreate rfl rfl
      rw [if_neg hcount, announce]
      cases env.timestamp with
      | none => exact .copied _ l d rfl hcreate rfl rfl
      | some timestamp =>
        dsimp only
        by_cases hperm : ¬Fits env.logPath timestamp
        · rw [if_pos hperm]
          exact .copied _ l d rfl hcreate rfl rfl
        rw [if_neg hperm]
        by_cases hlast : ¬Fits env.telemetryPath "lastlog_path".toList
        · rw [if_pos hlast]
          exact .copied _ l d rfl hcreate rfl rfl
        rw [if_neg hlast]
        exact .done _ ⟨l, d, rfl, (not_not.mp hlogs).2, hcreate, lt_of_not_ge hcount, rfl⟩ rfl

variable (env s) in
lemma frame_ondemandSetup : (ondemandSetup env s).2.frame = s.frame := by
  have h := SetupRule.of_ondemandSetup env s
  generalize ondemandSetup env s = r at h ⊢
  cases h with
  | early s' h hframe => exact hframe
  | uncreated s' h hframe => exact hframe
  | copied s' l d hl hd h hframe => exact hframe
  | done s' h hframe => exact hframe

lemma setupDone (h : (ondemandSetup env s).1 = 0) : SetupDone env s (ondemandSetup env s).2 := by
  have hrule := SetupRule.of_ondemandSetup env s
  generalize ondemandSetup env s = r at h hrule ⊢
  cases hrule with
  | early s' _ _ => cases h
  | uncreated s' _ _ => cases h
  | copied s' l d _ _ _ _ => cases h
  | done s' hdone hframe => exact hdone

/-! ### Names in the temporary directory -/

lemma mem_of_removeTar {removes : Bool} {archiveFile : Name}
    (h : n ∈ (removeTar removes archiveFile d).names) : n ∈ d.names := by
  rw [removeTar] at h
  split_ifs at h
  · rw [Directory.names_remove] at h
    exact List.mem_of_mem_filter h
  · exact h

/-- Only what is collected comes to the directory. -/
lemma mem_of_collectLogs {l : Directory Node} (hl : l.names.Nodup)
    (h : n ∈ (collectLogs env l d).2.names) :
    n ∈ d.names ∨ ∃ x, (n, x) ∈ l ∧ collects env n x = true := by
  rw [collectLogs] at h
  split_ifs at h
  · exact .inl h
  · cases hentries : env.readdir l with
    | none =>
      rw [hentries, collectFilesFromDir] at h
      exact .inl h
    | some entries =>
      rw [hentries, collectFilesFromDir] at h
      rw [mem_names_iff_lookup,
        lookup_foldl_copyEntry hl (env.readdir_perm l entries hentries)] at h
      exact (of_isSome_copied hl h).imp_left mem_names_iff_lookup.mpr

lemma lookup_collectLogs {l : Directory Node} (hl : l.names.Nodup)
    (hcount : 0 < (collectLogs env l d).1) :
    (collectLogs env l d).2.lookup n = copied env.copy (collects env) l n (d.lookup n) := by
  rw [collectLogs] at hcount ⊢
  split_ifs at hcount ⊢
  · simp at hcount
  · cases hentries : env.readdir l with
    | none =>
      rw [hentries, collectFilesFromDir] at hcount
      simp at hcount
    | some entries =>
      rw [collectFilesFromDir]
      exact lookup_foldl_copyEntry hl (env.readdir_perm l entries hentries)

/-- What is new in the directory before the cleanup. -/
lemma has_setup (hlogs : ∀ l, s.logs = some l → l.names.Nodup)
    (h : Has (ondemandSetup env s).2.temp n) :
    Has s.temp n ∨ ∃ l x, s.logs = some l ∧ (n, x) ∈ l ∧ collects env n x = true := by
  have hcopies : ∀ {l d : Directory Node}, s.logs = some l →
      createDirectory env.createsTemp (removeDirectory env.setupRemove s.temp).2 = some d →
      n ∈ (collectLogs env l d).2.names →
      Has s.temp n ∨ ∃ l x, s.logs = some l ∧ (n, x) ∈ l ∧ collects env n x = true := by
    intro l d hl hd hn
    rcases mem_of_collectLogs (hlogs l hl) hn with hn | ⟨x, hx, hsel⟩
    · rw [eq_of_createDirectory hd] at hn
      exact .inl (mem_of_removeDirectory hn).1
    · exact .inr ⟨l, x, hl, hx, hsel⟩
  have hrule := SetupRule.of_ondemandSetup env s
  generalize ondemandSetup env s = r at h hrule
  cases hrule with
  | early s' htemp _ =>
    rw [htemp] at h
    exact .inl h
  | uncreated s' htemp _ =>
    rw [htemp] at h
    cases h
  | copied s' l d hl hd htemp _ =>
    rw [htemp] at h
    exact hcopies hl hd h
  | done s' hdone _ =>
    obtain ⟨l, d, hl, -, hd, -, htemp⟩ := hdone
    rw [htemp] at h
    exact hcopies hl hd (mem_of_removeTar h)

lemma has_archive (h : Has (ondemandArchive env s).2.temp n) :
    Has s.temp n ∨ env.archiveName = some n := by
  rw [ondemandArchive] at h
  cases htemp : s.temp with
  | none =>
    rw [htemp] at h
    dsimp only at h
    rw [htemp] at h
    exact .inl h
  | some d =>
    cases hname : env.archiveName with
    | none =>
      rw [htemp, hname] at h
      dsimp only at h
      rw [htemp] at h
      exact .inl h
    | some m =>
      rw [htemp, hname] at h
      have hn : n ∈ (d.set m (env.archive d).2).names := h
      rw [mem_names_iff_lookup, Directory.lookup_set] at hn
      by_cases hm : n = m
      · exact .inr (hm ▸ rfl)
      · rw [if_neg hm] at hn
        exact .inl (mem_names_iff_lookup.mpr hn)

/-! ### Runs -/

lemma not_isDirectory_of_collects {x : Node} (h : collects env n x = true) :
    isDirectory x = false := by
  simp only [collects, Strategies.collects, decide_eq_true_eq] at h
  simpa using h.1

lemma mem_of_mem_cleanupOldArchives {unlinks : List Name → Bool} {dirs : List Name} {x : Node}
    (hx : isDirectory x = false) (h : (n, x) ∈ Reboot.cleanupOldArchives unlinks dirs d) :
    (n, x) ∈ d := by
  induction d with
  | nil =>
    rw [Reboot.cleanupOldArchives] at h
    exact h
  | cons p d ih =>
    obtain ⟨m, y⟩ := p
    cases y with
    | regular content =>
      rw [Reboot.cleanupOldArchives] at h
      split_ifs at h
      · exact List.mem_cons_of_mem _ (ih h)
      · exact (List.mem_cons.mp h).elim (fun heq => heq ▸ List.mem_cons_self)
          fun hmem => List.mem_cons_of_mem _ (ih hmem)
    | directory entries =>
      rw [Reboot.cleanupOldArchives] at h
      rcases List.mem_cons.mp h with heq | hmem
      · rw [(Prod.mk.inj heq).2] at hx
        cases hx
      · exact List.mem_cons_of_mem _ (ih hmem)
    | other =>
      rw [Reboot.cleanupOldArchives] at h
      exact (List.mem_cons.mp h).elim (fun heq => heq ▸ List.mem_cons_self)
        fun hmem => List.mem_cons_of_mem _ (ih hmem)

lemma nodup_cleaned (hlogs : ∀ l, logs = some l → l.names.Nodup) :
    ∀ l, (State.cleanupOldArchives env (.start logs temp)).logs = some l → l.names.Nodup := by
  intro l hl
  obtain ⟨l', hl', rfl⟩ := Option.map_eq_some_iff.mp hl
  exact (names_cleanupOldArchives _ _ l').nodup (hlogs l' hl')

variable (env logs temp) in
/-- The logs stay as they are, stale archives apart. -/
lemma logs_ondemandWorkflow : (ondemandWorkflow env logs temp).2.logs =
    logs.map (Reboot.cleanupOldArchives env.unlinks []) := by
  rw [ondemandWorkflow, Reboot.executeStrategyWorkflow_snd]
  have hlogs := Reboot.runPhases_preserves (ondemandStrategyHandler env) State.logs ?_ ?_
    (State.cleanupOldArchives env (.start logs temp))
  · exact hlogs.trans (congrArg Prod.fst (frame_ondemandSetup env _))
  · intro s
    change (ondemandArchive env s).2.logs = s.logs
    rw [ondemandArchive]
    cases s.temp <;> cases env.archiveName <;> rfl
  · intro s
    change (ondemandUpload env s).2.logs = s.logs
    rw [ondemandUpload]
    split_ifs <;> rfl

lemma has_runPhases (hlogs : ∀ l, s.logs = some l → l.names.Nodup)
    (h : Has (runPhases (ondemandStrategyHandler env) s).2.2.temp n) :
    Has s.temp n ∨ (∃ l x, s.logs = some l ∧ (n, x) ∈ l ∧ collects env n x = true) ∨
      env.archiveName = some n := by
  have hsetup : Has (ondemandSetup env s).2.temp n → Has s.temp n ∨
      (∃ l x, s.logs = some l ∧ (n, x) ∈ l ∧ collects env n x = true) ∨
        env.archiveName = some n := fun h => (has_setup hlogs h).imp_right .inl
  have harchive : Has (ondemandArchive env (ondemandSetup env s).2).2.temp n → Has s.temp n ∨
      (∃ l x, s.logs = some l ∧ (n, x) ∈ l ∧ collects env n x = true) ∨
        env.archiveName = some n := fun h => (has_archive h).elim hsetup fun h => .inr (.inr h)
  simp only [runPhases] at h
  split_ifs at h
  · exact hsetup h
  · exact harchive h
  · have hupload : ∀ s, (ondemandUpload env s).2.temp = s.temp := by
      intro s
      rw [ondemandUpload]
      split_ifs <;> rfl
    apply harchive
    rw [← hupload]
    exact h

/-- A run that leaves the temporary directory has failed. -/
lemma temp_ondemandWorkflow (hzero : (ondemandWorkflow env logs temp).1 = 0) :
    (ondemandWorkflow env logs temp).2.temp = none := by
  set s := State.cleanupOldArchives env (.start logs temp) with hs
  set p := runPhases (ondemandStrategyHandler env) s with hp
  have htemp : (ondemandWorkflow env logs temp).2.temp = (removeDirectory env.cleanupRemove
      (p.2.2.temp.map (removeTar env.removesTar p.2.2.archiveFile))).2 := rfl
  have hret : (ondemandWorkflow env logs temp).1 = if (ondemandCleanup env p.2.1 p.2.2).1 ≠ 0 ∧
      p.1 = 0 then (ondemandCleanup env p.2.1 p.2.2).1 else p.1 := rfl
  rw [htemp]
  cases hrest : (removeDirectory env.cleanupRemove
      (p.2.2.temp.map (removeTar env.removesTar p.2.2.archiveFile))).2 with
  | none => rfl
  | some rest =>
    have hcleanup : (ondemandCleanup env p.2.1 p.2.2).1 = -1 := by
      rw [ondemandCleanup, (lookup_removeDirectory hrest).1]
      rfl
    rw [hret, hcleanup] at hzero
    by_cases hphases : p.1 = 0
    · simp [hphases] at hzero
    · simp [hphases] at hzero

/-- What a run leaves in the temporary directory has not been removed by its cleanup. -/
lemma has_ondemandWorkflow (hlogs : ∀ l, logs = some l → l.names.Nodup)
    (h : Has (ondemandWorkflow env logs temp).2.temp n) : ¬env.cleanupRemove.clears n ∧
      (Has temp n ∨ (Run.mk env logs).Collects n ∨ env.archiveName = some n) := by
  set s := State.cleanupOldArchives env (.start logs temp) with hs
  set p := runPhases (ondemandStrategyHandler env) s with hp
  have htemp : (ondemandWorkflow env logs temp).2.temp = (removeDirectory env.cleanupRemove
      (p.2.2.temp.map (removeTar env.removesTar p.2.2.archiveFile))).2 := rfl
  rw [htemp] at h
  have hbefore : Has p.2.2.temp n := by
    have hremove := (mem_of_removeDirectory h).1
    cases hd : p.2.2.temp with
    | none =>
      rw [hd] at hremove
      exact hremove
    | some d =>
      rw [hd] at hremove
      exact mem_of_removeTar hremove
  refine ⟨(mem_of_removeDirectory h).2, ?_⟩
  rcases has_runPhases (nodup_cleaned hlogs) hbefore with h | ⟨l, x, hl, hx, hsel⟩ | h
  · exact .inl h
  · obtain ⟨l', hl', rfl⟩ := Option.map_eq_some_iff.mp hl
    have hfile := not_isDirectory_of_collects hsel
    exact .inr (.inl ⟨l', x, hl', mem_of_mem_cleanupOldArchives hfile hx, hsel⟩)
  · exact .inr (.inr h)

lemma sent_ondemandArchive (env : Env) (s : State) : (ondemandArchive env s).2.sent = s.sent := by
  rw [ondemandArchive]
  cases s.temp <;> cases env.archiveName <;> rfl

lemma packed_ondemandArchive (h : (ondemandArchive env s).1 = 0) :
    (ondemandArchive env s).2.packed = s.temp := by
  rw [ondemandArchive] at h ⊢
  cases htemp : s.temp with
  | none =>
    rw [htemp] at h
    simp at h
  | some d =>
    cases hname : env.archiveName with
    | none =>
      rw [htemp, hname] at h
      simp at h
    | some m => rfl

/-- What is uploaded has been archived after the logs have been copied. -/
lemma sent_ondemandWorkflow (hlogs : ∀ l, logs = some l → l.names.Nodup)
    (h : (ondemandWorkflow env logs temp).2.sent = some d) :
    ∃ l, (ondemandWorkflow env logs temp).2.logs = some l ∧ hasLogFiles l = true ∧
      ∀ n, d.lookup n = copied env.copy (collects env) l n
        (((removeDirectory env.setupRemove temp).2.getD []).lookup n) := by
  set s := State.cleanupOldArchives env (.start logs temp) with hs
  have hframe := frame_ondemandSetup env s
  have hnone : (ondemandSetup env s).2.sent = none := congrArg (·.2.2.2) hframe
  have hsent : (runPhases (ondemandStrategyHandler env) s).2.2.sent = some d := h
  simp only [runPhases] at hsent
  split_ifs at hsent with hsetup harchive
  · exact absurd (hnone.symm.trans hsent) (by simp)
  · have hsame := sent_ondemandArchive env (ondemandSetup env s).2
    exact absurd ((hsame.trans hnone).symm.trans hsent) (by simp)
  · have hupload : (ondemandUpload env (ondemandArchive env (ondemandSetup env s).2).2).2.sent =
        some d := hsent
    rw [ondemandUpload] at hupload
    by_cases hflag : ¬env.flag
    · rw [if_pos hflag] at hupload
      have hsame := sent_ondemandArchive env (ondemandSetup env s).2
      exact absurd ((hsame.trans hnone).symm.trans hupload) (by simp)
    rw [if_neg hflag] at hupload
    have hpacked := packed_ondemandArchive (not_not.mp harchive)
    obtain ⟨l, d₀, hl, hfiles, hd₀, hcount, htemp⟩ := setupDone (not_not.mp hsetup)
    have hd : (collectLogs env l d₀).2 = d := by
      have heq := (htemp.symm.trans (hpacked.symm.trans hupload))
      have htar : removeTar env.removesOldTar s.archiveFile (collectLogs env l d₀).2 =
          (collectLogs env l d₀).2 := if_neg fun h => h.1 rfl
      rw [htar] at heq
      exact Option.some.inj heq
    refine ⟨l, ?_, hfiles, fun n => ?_⟩
    · rw [logs_ondemandWorkflow]
      exact hl
    · rw [← hd, lookup_collectLogs (nodup_cleaned hlogs l hl) hcount]
      rw [eq_of_createDirectory hd₀]
      rfl

/-- An on-demand run leaves the logs alone, stale archives apart. It only succeeds when its
directory is gone, and what it uploads are the logs that it has copied, over what has been left in
that directory although it should have been removed. -/
theorem ondemandWorkflow_law (env : Env) (logs temp : Option (Directory Node))
    (hlogs : ∀ l, logs = some l → l.names.Nodup) :
    (ondemandWorkflow env logs temp).2.logs =
        logs.map (Reboot.cleanupOldArchives env.unlinks []) ∧
      ((ondemandWorkflow env logs temp).1 = 0 → (ondemandWorkflow env logs temp).2.temp = none) ∧
      ∀ d, (ondemandWorkflow env logs temp).2.sent = some d →
        ∃ l, (ondemandWorkflow env logs temp).2.logs = some l ∧ hasLogFiles l = true ∧
          ∀ n, d.lookup n = copied env.copy (collects env) l n
            (((removeDirectory env.setupRemove temp).2.getD []).lookup n) := by
  exact ⟨logs_ondemandWorkflow env logs temp, temp_ondemandWorkflow,
    fun d => sent_ondemandWorkflow hlogs⟩

/-- A device whose calls succeed, but for `emptyFolder` where `removes` says so. -/
def sampleEnv (removes : RemoveCalls) : Env where
  logPath := "/opt/logs".toList
  telemetryPath := "/opt/.telemetry".toList
  flag := true
  unlinks _ := true
  opensLogs := true
  readdir := some
  readdir_perm _ _ := perm_of_some_eq
  setupRemove := removes
  createsTemp := true
  copy := plainCopy
  timestamp := some "11-25-25-02-30PM-logbackup".toList
  opensLastlog := true
  removesOldTar := true
  archiveName := some "A84A_Logs_11-25-25-02-30PM.tgz".toList
  archive _ := (0, some .other)
  upload := 0
  removesTar := true
  cleanupRemove := removes

def removesAll : RemoveCalls := ⟨fun _ => true, true, true⟩

def sampleLogs : Directory Node :=
  [("messages.txt".toList, .regular "boot".toList), ("core".toList, .regular [])]

lemma cleaned_sampleLogs (unlinks : List Name → Bool) :
    Reboot.cleanupOldArchives unlinks [] sampleLogs = sampleLogs :=
  cleanupOldArchives_eq_self (by decide)

lemma ondemandWorkflow_sample (removes : RemoveCalls) (temp : Option (Directory Node)) :
    ondemandWorkflow (sampleEnv removes) (some sampleLogs) temp = executeStrategyWorkflow id
      (ondemandStrategyHandler (sampleEnv removes)) (.start (some sampleLogs) temp) := by
  have hstart : State.cleanupOldArchives (sampleEnv removes) (.start (some sampleLogs) temp) =
      .start (some sampleLogs) temp := by
    simp only [State.cleanupOldArchives, State.start, Option.map_some, cleaned_sampleLogs]
  rw [ondemandWorkflow, executeStrategyWorkflow, hstart]
  rfl

/-- The messages are uploaded, and the directory is gone. -/
theorem ondemandWorkflow_sampleLogs :
    (ondemandWorkflow (sampleEnv removesAll) (some sampleLogs) none).2.temp = none ∧
      ∃ d, (ondemandWorkflow (sampleEnv removesAll) (some sampleLogs) none).2.sent = some d ∧
        d.lookup "messages.txt".toList = some (.regular "boot".toList) := by
  obtain ⟨hlogs, hgone, hsent⟩ := ondemandWorkflow_law (sampleEnv removesAll) (some sampleLogs)
    none fun l hl => by
      obtain rfl := Option.some.inj hl
      decide
  rw [Option.map_some, cleaned_sampleLogs] at hlogs
  have hdone : (ondemandWorkflow (sampleEnv removesAll) (some sampleLogs) none).1 = 0 ∧
      (ondemandWorkflow (sampleEnv removesAll) (some sampleLogs) none).2.sent.isSome := by
    rw [ondemandWorkflow_sample]
    decide +kernel
  obtain ⟨d, hd⟩ := Option.isSome_iff_exists.mp hdone.2
  obtain ⟨l, hl, -, hlook⟩ := hsent d hd
  obtain rfl := Option.some.inj (hlogs.symm.trans hl)
  refine ⟨hgone hdone.1, d, hd, ?_⟩
  rw [hlook]
  rfl

/-! ### Runs that follow each other -/

lemma tempAfter_append (history : List Run) (q : Run) : tempAfter (history ++ [q]) =
    (ondemandWorkflow q.env q.logs (tempAfter history)).2.temp := by
  rw [tempAfter, List.foldl_append]
  rfl

/-- What is in the directory has been put there by a run, and left by it and every run since. -/
lemma has_tempAfter {history : List Run}
    (hlogs : ∀ q ∈ history, ∀ l, q.logs = some l → l.names.Nodup) (h : Has (tempAfter history) n) :
    ∃ h₁ q h₂, history = h₁ ++ q :: h₂ ∧ q.Leaves n ∧ Has (tempAfter (h₁ ++ [q])) n ∧
      ∀ q' ∈ h₂, ¬q'.env.cleanupRemove.clears n := by
  induction history using List.reverseRecOn with
  | nil => cases h
  | append_singleton history q ih =>
    have hlast := h
    rw [tempAfter_append] at hlast
    obtain ⟨hclears, hold | hnew⟩ := has_ondemandWorkflow (hlogs q (by simp)) hlast
    · obtain ⟨h₁, r, h₂, rfl, hr, hhas, hrest⟩ :=
        ih (fun q' hq' => hlogs q' (List.mem_append_left _ hq')) hold
      refine ⟨h₁, r, h₂ ++ [q], by simp, hr, hhas, fun q' hq' => ?_⟩
      rcases List.mem_append.mp hq' with hq' | hq'
      · exact hrest q' hq'
      · obtain rfl := List.mem_singleton.mp hq'
        exact hclears
    · exact ⟨history, q, [], rfl, ⟨hnew, hclears⟩, h, by simp⟩

def removesNothing : RemoveCalls := ⟨fun _ => false, false, false⟩

/-- A run that could not remove its directory, and one whose logs are other ones. -/
def sampleHistory : List Run := [⟨sampleEnv removesNothing, some sampleLogs⟩]

def laterLogs : Directory Node := [("later.log".toList, .regular [])]

def laterRun : Run := ⟨sampleEnv removesNothing, some laterLogs⟩

end OnDemand

end DcmAgent.Strategies
