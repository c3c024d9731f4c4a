import Mathlib.Data.List.TakeWhile
import Mathlib.Tactic
import DcmAgent.Reboot.Kept
import DcmAgent.Strategies.Dcm
import DcmAgent.Upload.BackupNames

/-!
# From the boots to the next DCM run

With `upload_on_reboot` off, `reboot_cleanup` appends the path of the permanent backup to the file
`dcm_upload` of `LOG_PATH`, and the next DCM run copies the directories that are listed there. Each
boot runs in a process of its own. A log that a boot has moved to its backup is handed to the upload
by that run, whatever has become of the upload of the boot itself.
-/

namespace DcmAgent.Strategies.Handoff

open Library
open Reboot (Name Fits pathOf StrategyHandler executeStrategyWorkflow runPhases Unstamped Packs
  Restores Moves stamp stamped refreshPrev)

/-! ### Boots -/

/-- A run of the reboot strategy, and what it finds in `PREV_LOG_PATH`. -/
structure Boot where
  env : Reboot.Env
  prev : Option (Directory Node)
  opensList : Bool
  /-- Stale archives are removed below a backup. -/
  unlinks : List Char → List Name → Bool

/-- The file `dcm_upload` and the permanent backups. -/
structure Store where
  list : List Char
  backups : List Char → Directory Node

variable (b : Boot)

/-- The end of `reboot_cleanup`. -/
def appendPermLogPath (permLogPath list : List Char) : List Char :=
  if b.env.dcmFlag = 1 ∧ b.env.uploadOnReboot = 0 ∧ Fits b.env.logPath Dcm.listName ∧
      b.opensList then
    list ++ (permLogPath ++ ['\n'])
  else list

def rebootCleanup (uploadSuccess : Bool) (s : Reboot.State × List Char) :
    ℤ × Reboot.State × List Char :=
  let r := Reboot.rebootCleanup b.env uploadSuccess s.1
  (r.1, r.2, if r.1 = 0 then appendPermLogPath b s.1.statics.permLogPath s.2 else s.2)

/-- The other phases do not touch the list. -/
def rebootStrategyHandler : StrategyHandler (Reboot.State × List Char) where
  setupPhase s := let r := Reboot.rebootSetup b.env s.1; (r.1, r.2, s.2)
  archivePhase s := let r := Reboot.rebootArchive b.env s.1; (r.1, r.2, s.2)
  uploadPhase s := let r := Reboot.rebootUpload b.env s.1; (r.1, r.2, s.2)
  cleanupPhase := rebootCleanup b

/-- The backups, without stale archives. -/
def Boot.cleaned (s : Store) (p : List Char) : Directory Node :=
  Reboot.cleanupOldArchives (b.unlinks p) [] (s.backups p)

def Boot.run (s : Store) : Store :=
  let r := executeStrategyWorkflow
    (fun s : Reboot.State × List Char => (Reboot.State.cleanupOldArchives b.env s.1, s.2))
    (rebootStrategyHandler b) (⟨.init, b.prev, b.cleaned s, []⟩, s.list)
  ⟨r.2.2, r.2.1.backups⟩

/-! ### What a boot hands over -/

/-- The name of a permanent backup. -/
def backupName (t : ℤ) : Name := Upload.OldBackups.permTimestamp t

lemma append_dashes (a b c d e w : List Char) (x : Char) :
    a ++ '-' :: (b ++ '-' :: (c ++ '-' :: (d ++ '-' :: (e ++ x :: 'M' :: '-' :: w)))) =
      a ++ '-' :: b ++ '-' :: c ++ '-' :: d ++ '-' :: e ++ [x, 'M', '-'] ++ w := by
  simp only [List.append_assoc, List.cons_append, List.nil_append]

lemma backupName_eq (t : ℤ) : backupName t = stamp t ++ "logbackup".toList :=
  append_dashes _ _ _ _ _ "logbackup".toList _

/-- The boots have one `LOG_PATH`, and their backups are named after a time. -/
structure Boot.Regular (logPath : List Char) : Prop where
  logPath_eq : b.env.logPath = logPath
  permTimestamp : ∀ name, b.env.permTimestamp = some name → ∃ t, name = backupName t

/-- The calls of a boot that concern a log succeed: the setup, taking its timestamp off, moving it
to the backup, and listing that. The upload may fail. -/
structure Boot.Saves (time : ℤ) (name n : Name) (content : List Char) (d : Directory Node) :
    Prop where
  prev : b.prev = some d
  unstamped : Unstamped (stamp time) d
  lookup : d.lookup n = some (.regular content)
  kept : Reboot.isOldArchive n = false ∧ n ≠ "logs.tar.gz".toList ∧ n ≠ "backup_logs.log.0".toList
  timestamp : b.env.timestamp = some (stamp time)
  permTimestamp : b.env.permTimestamp = some name
  setup : ∀ backups, (Reboot.rebootSetup b.env
    (Reboot.State.cleanupOldArchives b.env ⟨.init, b.prev, backups, []⟩)).1 = 0
  packs : Packs b.env (stamp time)
    (refreshPrev b.env (Reboot.cleanupOldArchives b.env.unlinks [] d))
  restores : Restores b.env (stamp time) n
  creates : b.env.createsDirectory = true
  reads : ∀ d, b.env.readdir .move d ≠ none
  moves : Moves b.env (pathOf b.env.logPath name) n
  lists : b.env.dcmFlag = 1 ∧ b.env.uploadOnReboot = 0 ∧ Fits b.env.logPath Dcm.listName ∧
    b.opensList = true

/-- The calls of the DCM run that concern the log succeed, and the backup is where it is listed. -/
structure Fetches (env : Dcm.Env) (s : Store) (logPath : List Char) (name n : Name) : Prop where
  uploadOnReboot : env.uploadOnReboot = false
  opensList : env.opensList = true
  listed : env.listed (pathOf logPath name) =
    some (Reboot.cleanupOldArchives env.unlinks [name] (s.backups (pathOf logPath name)))
  creates : ∀ i, env.createsBatch i = true
  opens : ∀ i, (env.batch i).opens [] = true
  copies : ∀ i content, (((env.batch i).copy []).copyFile n (.regular content) none).1 = true

variable {b} {s : Store} {logPath p q : List Char} {name n m : Name} {content : List Char}
  {time t : ℤ} {d : Directory Node} {x : Node}

/-! ### The state of a boot -/

/-- The phases before the cleanup phase. -/
def Boot.phases (b : Boot) (s : Store) : ℤ × Bool × Reboot.State :=
  runPhases (Reboot.rebootStrategyHandler b.env)
    (Reboot.State.cleanupOldArchives b.env ⟨.init, b.prev, b.cleaned s, []⟩)

/-- The state of the process at the end. -/
def Boot.last (b : Boot) (s : Store) : Reboot.State :=
  (Reboot.rebootCleanup b.env (b.phases s).2.1 (b.phases s).2.2).2

lemma rebootWorkflow_snd (b : Boot) (s : Store) :
    (Reboot.rebootWorkflow b.env .init b.prev (b.cleaned s)).2 = b.last s := rfl

/-- The phases of a handler that keeps more in its state. -/
lemma runPhases_simulates {σ τ : Type} {handler : StrategyHandler σ} {handler' : StrategyHandler τ}
    (π : τ → σ)
    (hsetup : ∀ s, Prod.map id π (handler'.setupPhase s) = handler.setupPhase (π s))
    (harchive : ∀ s, Prod.map id π (handler'.archivePhase s) = handler.archivePhase (π s))
    (hupload : ∀ s, Prod.map id π (handler'.uploadPhase s) = handler.uploadPhase (π s)) (s : τ) :
    Prod.map id (Prod.map id π) (runPhases handler' s) = runPhases handler (π s) := by
  simp only [runPhases, ← hsetup, ← harchive, ← hupload, Prod.map_fst, Prod.map_snd, id]
  split_ifs <;> rfl

lemma runPhases_handler (b : Boot) (s : Reboot.State × List Char) :
    runPhases (rebootStrategyHandler b) s =
      ((runPhases (Reboot.rebootStrategyHandler b.env) s.1).1,
        (runPhases (Reboot.rebootStrategyHandler b.env) s.1).2.1,
          (runPhases (Reboot.rebootStrategyHandler b.env) s.1).2.2, s.2) := by
  have hsim : Prod.map id (Prod.map id Prod.fst) (runPhases (rebootStrategyHandler b) s) =
      runPhases (Reboot.rebootStrategyHandler b.env) s.1 :=
    runPhases_simulates Prod.fst (fun _ => rfl) (fun _ => rfl) (fun _ => rfl) s
  have hlist : (runPhases (rebootStrategyHandler b) s).2.2.2 = s.2 :=
    Reboot.runPhases_preserves (rebootStrategyHandler b) Prod.snd (fun _ => rfl) (fun _ => rfl) s
  rw [← hsim, ← hlist]
  rfl

lemma fst_rebootCleanup (env : Reboot.Env) (uploadSuccess : Bool) (s : Reboot.State) :
    (Reboot.rebootCleanup env uploadSuccess s).1 = 0 ↔
      Reboot.createDirectory env s.statics.permLogPath = true := by
  rw [Reboot.rebootCleanup]
  by_cases hcreate : Reboot.createDirectory env s.statics.permLogPath
  · rw [if_neg (not_not.mpr hcreate)]
    cases s.prev.map _ with
    | none => simp [hcreate]
    | some d => simp [hcreate]
  · rw [if_pos hcreate]
    simp [hcreate]

lemma run_eq (b : Boot) (s : Store) :
    b.run s = ⟨(rebootCleanup b (b.phases s).2.1 ((b.phases s).2.2, s.list)).2.2,
      (b.last s).backups⟩ := by
  have hrun : (executeStrategyWorkflow
      (fun s : Reboot.State × List Char => (Reboot.State.cleanupOldArchives b.env s.1, s.2))
      (rebootStrategyHandler b) (⟨.init, b.prev, b.cleaned s, []⟩, s.list)).2 =
        (rebootCleanup b (b.phases s).2.1 ((b.phases s).2.2, s.list)).2 := by
    rw [Reboot.executeStrategyWorkflow_snd, runPhases_handler]
    rfl
  rw [Boot.run, hrun]
  rfl

lemma backups_run (b : Boot) (s : Store) : (b.run s).backups = (b.last s).backups := by
  rw [run_eq]

lemma list_run (b : Boot) (s : Store) : (b.run s).list =
    if Reboot.createDirectory b.env (b.last s).statics.permLogPath then
      appendPermLogPath b (b.last s).statics.permLogPath s.list
    else s.list := by
  rw [run_eq, Boot.last, Reboot.statics_rebootCleanup]
  simp only [rebootCleanup, fst_rebootCleanup]

/-- The path of the backup of a boot. -/
lemma permLogPath_last (b : Boot) (s : Store) : (b.last s).statics.permLogPath = [] ∨
    ∃ name, b.env.permTimestamp = some name ∧ Fits b.env.logPath name ∧
      (b.last s).statics.permLogPath = pathOf b.env.logPath name := by
  rw [← rebootWorkflow_snd, Reboot.statics_rebootWorkflow, Reboot.permLogPath_rebootSetup]
  split
  · rename_i d name _ _ hname
    split_ifs with h
    · exact Or.inr ⟨name, hname, h.2, rfl⟩
    · exact Or.inl rfl
  · exact Or.inl rfl

/-! ### Backups -/

lemma backups_rebootSetup (env : Reboot.Env) (s : Reboot.State) (q : List Char) :
    (Reboot.rebootSetup env s).2.backups q = s.backups q ∨
      env.expired q = true ∧ (Reboot.rebootSetup env s).2.backups q = [] := by
  have hexpired : (if env.expired q then [] else s.backups q) = s.backups q ∨
      env.expired q = true ∧ (if env.expired q then [] else s.backups q) = [] := by
    cases env.expired q with
    | false => exact Or.inl rfl
    | true => exact Or.inr ⟨rfl, rfl⟩
  rw [Reboot.rebootSetup]
  by_cases hdone : ¬env.backupLogsDone
  · rw [if_pos hdone]
    exact Or.inl rfl
  rw [if_neg hdone]
  cases s.prev with
  | none => exact Or.inl rfl
  | some d =>
    dsimp only
    by_cases hlogs : ¬Reboot.hasLogFiles d
    · rw [if_pos hlogs]
      exact Or.inl rfl
    rw [if_neg hlogs]
    cases env.permTimestamp with
    | none => exact hexpired
    | some timestamp =>
      dsimp only
      split_ifs <;> exact hexpired

lemma nodup_moveDirectoryContents {env : Reboot.Env} {backup : Directory Node}
    (h : backup.names.Nodup) (p : List Char) (d : Directory Node) :
    (Reboot.moveDirectoryContents env p d backup).2.names.Nodup := by
  have hstep : ∀ (l : List Name) (dirs : Directory Node × Directory Node), dirs.2.names.Nodup →
      (l.foldl (Reboot.moveEntry env p) dirs).2.names.Nodup := by
    intro l
    induction l with
    | nil => exact fun dirs h => h
    | cons n l ih =>
      intro dirs h
      refine ih _ ?_
      rw [Reboot.moveEntry]
      cases dirs.1.lookup n with
      | none => exact h
      | some x =>
        dsimp only
        split_ifs
        · exact Directory.nodup_set (o := some x) h
        · exact h
  rw [Reboot.moveDirectoryContents]
  cases env.readdir .move d with
  | none => exact h
  | some entries => exact hstep entries _ h

/-- How a boot leaves a backup: as it was, expired, or with the logs of the boot. -/
lemma backups_last (b : Boot) (s : Store) (q : List Char) :
    ∃ old, (old = b.cleaned s q ∨ b.env.expired q = true ∧ old = []) ∧
      ((b.last s).backups q = old ∨ q = (b.last s).statics.permLogPath ∧ ∃ d,
        (b.last s).backups q = (Reboot.moveDirectoryContents b.env q d old).2) := by
  obtain ⟨start, hstart⟩ : ∃ start, start =
      Reboot.State.cleanupOldArchives b.env ⟨.init, b.prev, b.cleaned s, []⟩ := ⟨_, rfl⟩
  have hbackups : (b.phases s).2.2.backups = (Reboot.rebootSetup b.env start).2.backups := by
    rw [Boot.phases, ← hstart]
    exact Reboot.runPhases_preserves (Reboot.rebootStrategyHandler b.env) Reboot.State.backups
      (Reboot.backups_rebootArchive b.env) (Reboot.backups_rebootUpload b.env) start
  refine ⟨(b.phases s).2.2.backups q, ?_, ?_⟩
  · rw [hbackups, hstart]
    exact backups_rebootSetup b.env _ q
  · rw [Boot.last, Reboot.statics_rebootCleanup]
    generalize b.phases s = r
    rw [Reboot.rebootCleanup]
    by_cases hcreate : ¬Reboot.createDirectory b.env r.2.2.statics.permLogPath
    · rw [if_pos hcreate]
      exact Or.inl rfl
    rw [if_neg hcreate]
    cases r.2.2.prev.map _ with
    | none => exact Or.inl rfl
    | some d =>
      by_cases hq : q = r.2.2.statics.permLogPath
      · subst hq
        exact Or.inr ⟨rfl, d, Function.update_self _ _ _⟩
      · exact Or.inl (Function.update_of_ne hq _ _)

lemma nodup_cleanupOldArchives {unlinks : List Name → Bool} {dirs : List Name}
    (h : d.names.Nodup) : (Directory.names (Reboot.cleanupOldArchives unlinks dirs d)).Nodup :=
  (names_cleanupOldArchives unlinks dirs d).nodup h

lemma nodup_run (b : Boot) (h : ∀ q, (s.backups q).names.Nodup) (q : List Char) :
    ((b.run s).backups q).names.Nodup := by
  rw [backups_run]
  obtain ⟨old, hold, hlast⟩ := backups_last b s q
  have hnodup : old.names.Nodup := by
    rcases hold with rfl | ⟨-, rfl⟩
    · exact nodup_cleanupOldArchives (h q)
    · exact List.nodup_nil
  rcases hlast with hlast | ⟨-, d, hlast⟩
  · rw [hlast]
    exact hnodup
  · rw [hlast]
    exact nodup_moveDirectoryContents hnodup q d

/-- A log that is no archive stays. -/
lemma lookup_cleanupOldArchives {unlinks : List Name → Bool} {dirs : List Name}
    (hnodup : d.names.Nodup) (hn : Reboot.isOldArchive n = false)
    (h : d.lookup n = some (.regular content)) :
    (Reboot.cleanupOldArchives unlinks dirs d).lookup n = some (.regular content) := by
  refine (Directory.lookup_eq_some_iff (nodup_cleanupOldArchives hnodup)).mpr ?_
  refine Reboot.regular_mem_cleanupOldArchives.mpr
    ⟨(Directory.lookup_eq_some_iff hnodup).mp h, fun hold => ?_⟩
  rw [hn] at hold
  exact absurd hold.1 (by decide)

/-- The backup of an earlier boot keeps its logs. -/
lemma lookup_run (b : Boot) (hnodup : ∀ q, (s.backups q).names.Nodup)
    (hn : Reboot.isOldArchive n = false) (hq : (b.last s).statics.permLogPath ≠ q)
    (hexpired : b.env.expired q = false) (h : (s.backups q).lookup n = some (.regular content)) :
    ((b.run s).backups q).lookup n = some (.regular content) := by
  rw [backups_run]
  obtain ⟨old, hold, hlast⟩ := backups_last b s q
  obtain rfl : old = b.cleaned s q := hold.resolve_right fun hold => by
    rw [hexpired] at hold
    exact absurd hold.1 (by decide)
  rw [hlast.resolve_right fun hlast => hq hlast.1.symm]
  exact lookup_cleanupOldArchives (hnodup q) hn h

/-! ### The boot of a log -/

section Saves

variable (hsaves : b.Saves time name n content d)

include hsaves

/-- It is in the directory whose entries get their timestamps. -/
lemma Boot.Saves.lookup_refreshPrev :
    (refreshPrev b.env (Reboot.cleanupOldArchives b.env.unlinks [] d)).lookup n =
      some (.regular content) := by
  obtain ⟨hold, htar, hlog⟩ := hsaves.kept
  have hcleaned : (Reboot.cleanupOldArchives b.env.unlinks [] d).lookup n =
      some (.regular content) :=
    lookup_cleanupOldArchives hsaves.unstamped.nodup hold hsaves.lookup
  have hremoved : (if b.env.removesOldTar then
      Directory.remove (Reboot.cleanupOldArchives b.env.unlinks [] d) "logs.tar.gz".toList
      else Reboot.cleanupOldArchives b.env.unlinks [] d).lookup n = some (.regular content) := by
    split_ifs
    · rw [Directory.lookup_remove, if_neg htar, hcleaned]
    · exact hcleaned
  rw [refreshPrev]
  cases b.env.backupLogsLog with
  | none => exact hremoved
  | some x => rw [Directory.lookup_put, if_neg hlog, hremoved]

lemma Boot.Saves.permLogPath_last (s : Store) :
    (b.last s).statics.permLogPath = pathOf b.env.logPath name := by
  have hsetup := hsaves.setup (b.cleaned s)
  obtain ⟨d', name', -, hname, hstate⟩ := Reboot.rebootSetup_done hsetup
  obtain rfl : name' = name := Option.some.inj (hname.symm.trans hsaves.permTimestamp)
  rw [← rebootWorkflow_snd, Reboot.statics_rebootWorkflow, hstate, Reboot.addTimestampToFiles]
  exact Reboot.permLogPath_storeTimestamp _ _ _

/-- It is moved to the backup under its own name. -/
lemma Boot.Saves.lookup_run (s : Store) :
    ((b.run s).backups (pathOf b.env.logPath name)).lookup n = some (.regular content) := by
  have hsetup := hsaves.setup (b.cleaned s)
  have hprev := hsaves.prev
  rw [hprev] at hsetup
  obtain ⟨s₂, d₂, hpath, hrule, hrestored⟩ := Reboot.exists_cleanupRule hsaves.unstamped
    hsaves.timestamp hsaves.permTimestamp hsetup hsaves.packs
  rw [← hprev, rebootWorkflow_snd] at hrule
  obtain ⟨k, hk, hlook⟩ := hrestored n _ hsaves.lookup_refreshPrev
  obtain rfl := hk.resolve_right fun h => h.2 hsaves.restores
  rw [backups_run, ← hpath]
  generalize b.last s = s' at hrule ⊢
  cases hrule with
  | failed hcreates hprev =>
    rw [hsaves.creates] at hcreates
    cases hcreates
  | moved hcreates hprev hbackups =>
    rw [hbackups, Reboot.moveDirectoryContents, hpath]
    obtain ⟨entries, hentries⟩ := Option.ne_none_iff_exists'.mp (hsaves.reads d₂)
    rw [hentries]
    have hmem : k ∈ entries := by
      refine b.env.complete _ _ _ _ hentries ?_
      by_contra hnot
      rw [Directory.lookup_eq_none_iff.mpr hnot] at hlook
      cases hlook
    dsimp only
    rw [(Reboot.lookup_foldl_moveEntry b.env _ entries k _).2, if_pos ⟨hmem, hsaves.moves⟩, hlook]
    rfl

lemma Boot.Saves.list_run (s : Store) :
    (b.run s).list = s.list ++ (pathOf b.env.logPath name ++ ['\n']) := by
  rw [Handoff.list_run, hsaves.permLogPath_last, if_pos, appendPermLogPath, if_pos hsaves.lists]
  simp [Reboot.createDirectory, Reboot.pathOf_ne_nil, hsaves.creates]

end Saves

/-! ### The list -/

/-- What the boots append to the list. -/
structure Lists (logPath : List Char) (paths : List (List Char)) (list : List Char) : Prop where
  eq : list = paths.flatMap fun p => p ++ ['\n']
  path : ∀ p ∈ paths, ∃ t, p = pathOf logPath (backupName t) ∧ Fits logPath (backupName t)

lemma Lists.run (hb : b.Regular logPath) {paths : List (List Char)}
    (h : Lists logPath paths s.list) :
    ∃ more, Lists logPath (paths ++ more) (b.run s).list := by
  have hnone : ∃ more, Lists logPath (paths ++ more) s.list :=
    ⟨[], by rwa [List.append_nil]⟩
  rw [list_run, appendPermLogPath]
  split_ifs with hcreates hlists
  · rcases permLogPath_last b s with hnil | ⟨name, hname, hfits, hpath⟩
    · rw [hnil] at hcreates
      simp [Reboot.createDirectory] at hcreates
    · obtain ⟨t, rfl⟩ := hb.permTimestamp name hname
      rw [hb.logPath_eq] at hfits hpath
      refine ⟨[pathOf logPath (backupName t)], ?_, ?_⟩
      · rw [h.eq, hpath, List.flatMap_append, List.flatMap_singleton]
      · intro p hp
        rcases List.mem_append.mp hp with hp | hp
        · exact h.path p hp
        · exact ⟨t, List.mem_singleton.mp hp, hfits⟩
  · exact hnone
  · exact hnone

lemma Lists.run_of_saves {paths : List (List Char)} (h : Lists logPath paths s.list)
    (hb : b.Regular logPath) (hsaves : b.Saves time name n content d) :
    Lists logPath (paths ++ [pathOf logPath name]) (b.run s).list := by
  have hpath := hsaves.permLogPath_last s
  rw [hsaves.list_run, hb.logPath_eq]
  refine ⟨?_, fun p hp => ?_⟩
  · rw [h.eq, List.flatMap_append, List.flatMap_singleton]
  · rcases List.mem_append.mp hp with hp | hp
    · exact h.path p hp
    · obtain rfl := List.mem_singleton.mp hp
      obtain ⟨t, rfl⟩ := hb.permTimestamp name hsaves.permTimestamp
      rcases permLogPath_last b s with hnil | ⟨name, hname, hfits, -⟩
      · exact absurd (hpath.symm.trans hnil) (Reboot.pathOf_ne_nil _ _)
      · obtain rfl := Option.some.inj (hname.symm.trans hsaves.permTimestamp)
        rw [hb.logPath_eq] at hfits
        exact ⟨t, rfl, hfits⟩

/-! ### Histories -/

lemma nodup_foldl_run {boots : List Boot} (h : ∀ q, (s.backups q).names.Nodup) (q : List Char) :
    ((boots.foldl (fun s b => b.run s) s).backups q).names.Nodup := by
  induction boots generalizing s with
  | nil => exact h q
  | cons b boots ih => exact ih (nodup_run b h)

lemma Lists.foldl_run {boots : List Boot} (hboots : ∀ b ∈ boots, b.Regular logPath)
    {paths : List (List Char)} (h : Lists logPath paths s.list) :
    ∃ more, Lists logPath (paths ++ more) (boots.foldl (fun s b => b.run s) s).list := by
  induction boots generalizing s paths with
  | nil => exact ⟨[], by rwa [List.append_nil]⟩
  | cons b boots ih =>
    rw [List.forall_mem_cons] at hboots
    obtain ⟨more, hmore⟩ := h.run hboots.1
    obtain ⟨rest, hrest⟩ := ih hboots.2 hmore
    exact ⟨more ++ rest, by rwa [← List.append_assoc]⟩

/-- Other boots have other backups, and leave this one. -/
structure Boot.Leaves (b : Boot) (logPath : List Char) (name : Name) : Prop where
  regular : b.Regular logPath
  permTimestamp : b.env.permTimestamp ≠ some name
  expired : b.env.expired (pathOf logPath name) = false

lemma pathOf_injective (logPath : List Char) {name name' : Name}
    (h : pathOf logPath name = pathOf logPath name') : name = name' :=
  (List.cons.inj (List.append_cancel_left h)).2

lemma Boot.Leaves.permLogPath_last (h : b.Leaves logPath name) (s : Store) :
    (b.last s).statics.permLogPath ≠ pathOf logPath name := by
  intro heq
  rcases Handoff.permLogPath_last b s with hnil | ⟨name', hname, -, hpath⟩
  · exact Reboot.pathOf_ne_nil _ _ (heq.symm.trans hnil)
  · rw [hpath, h.regular.logPath_eq] at heq
    exact h.permTimestamp (hname.trans (congrArg some (pathOf_injective logPath heq)))

lemma lookup_foldl_run {boots : List Boot} (hboots : ∀ b ∈ boots, b.Leaves logPath name)
    (hn : Reboot.isOldArchive n = false) (hnodup : ∀ q, (s.backups q).names.Nodup)
    (h : (s.backups (pathOf logPath name)).lookup n = some (.regular content)) :
    ((boots.foldl (fun s b => b.run s) s).backups (pathOf logPath name)).lookup n =
      some (.regular content) := by
  induction boots generalizing s with
  | nil => exact h
  | cons b boots ih =>
    rw [List.forall_mem_cons] at hboots
    refine ih hboots.2 (nodup_run b hnodup) ?_
    exact lookup_run b hnodup hn (hboots.1.permLogPath_last s) hboots.1.expired h

/-! ### Reading the list -/

/-- A line that fits the array is read at once, but for the newline. -/
lemma piecesFrom_line (size : ℕ) {room : ℕ} (acc : List Char) {p : List Char} (hp : '\n' ∉ p)
    (hpos : 0 < room) (hle : p.length ≤ room) :
    piecesFrom size room acc (p ++ ['\n']) = [acc ++ (p ++ ['\n'])] ∨
      piecesFrom size room acc (p ++ ['\n']) = [acc ++ p, ['\n']] := by
  induction p generalizing room acc with
  | nil =>
    left
    simp [piecesFrom]
  | cons c p ih =>
    rw [List.mem_cons, not_or] at hp
    rw [List.length_cons] at hle
    rw [List.cons_append, piecesFrom]
    by_cases hroom : room ≤ 1
    · obtain rfl : p = [] := List.eq_nil_of_length_eq_zero (by omega)
      right
      simp [hroom, piecesFrom]
    · rw [if_neg fun h => h.elim (Ne.symm hp.1) hroom]
      have hrest : piecesFrom size (room - 1) (acc ++ [c]) (p ++ ['\n']) =
            [acc ++ [c] ++ (p ++ ['\n'])] ∨
          piecesFrom size (room - 1) (acc ++ [c]) (p ++ ['\n']) = [acc ++ [c] ++ p, ['\n']] :=
        ih _ hp.2 (by omega) (by omega)
      rwa [List.append_assoc, List.append_assoc] at hrest

lemma listLine_of_line {p : List Char} (hnl : '\n' ∉ p) (hzero : Char.ofNat 0 ∉ p) :
    Dcm.listLine p = p ∧ Dcm.listLine (p ++ ['\n']) = p := by
  have hkeep : ∀ q : List Char, Char.ofNat 0 ∉ q → q.takeWhile (· ≠ Char.ofNat 0) = q := by
    intro q hq
    refine List.takeWhile_eq_self_iff.mpr fun c hc => ?_
    rw [decide_eq_true_eq]
    rintro rfl
    exact hq hc
  constructor
  · rw [Dcm.listLine, hkeep p hzero]
    exact if_neg fun h => hnl (List.mem_of_getLast? h)
  · have hzero' : Char.ofNat 0 ∉ p ++ ['\n'] := by
      rw [List.mem_append, not_or]
      exact ⟨hzero, by decide⟩
    rw [Dcm.listLine, hkeep _ hzero']
    simp

lemma baseName_pathOf {logPath : List Char} (h : '/' ∉ name) :
    Dcm.baseName (pathOf logPath name) = name := by
  have hkeep : ∀ c ∈ name.reverse, c ≠ '/' := by
    rintro c hc rfl
    exact h (List.mem_reverse.mp hc)
  rw [Dcm.baseName, pathOf, List.reverse_append, List.reverse_cons, List.append_assoc,
    List.takeWhile_append_of_pos (by simpa using hkeep)]
  simp

/-- The characters that names of backups are made of. -/
def backupChars : List Char := "0123456789abcdef*-APMlogbackup".toList

lemma mem_backupChars {c : Char} (h : c ∈ backupName t) : c ∈ backupChars := by
  have hite : ∀ (p : Prop) [Decidable p] {a b : Char}, a ∈ backupChars → b ∈ backupChars →
      (if p then a else b) ∈ backupChars := by
    intro p _ a b ha hb
    by_cases hp : p
    · rwa [if_pos hp]
    · rwa [if_neg hp]
  have hdigit : ∀ n, Nat.digitChar n ∈ backupChars := by
    intro n
    unfold Nat.digitChar
    iterate 16 refine hite _ (by decide) ?_
    decide
  have htwo : ∀ n, ∀ c ∈ Backup.Enabled.twoDigits n, c ∈ backupChars := fun n =>
    List.forall_mem_cons.mpr ⟨hdigit _, List.forall_mem_singleton.mpr (hdigit _)⟩
  have hdash : '-' ∈ backupChars := by decide
  have hword : ∀ c ∈ "logbackup".toList, c ∈ backupChars := fun c hc =>
    (show "logbackup".toList <:+ backupChars by decide).subset hc
  have hall : ∀ c ∈ backupName t, c ∈ backupChars := by
    simp only [backupName_eq, stamp, List.forall_mem_append, List.forall_mem_cons]
    exact ⟨⟨⟨⟨⟨⟨htwo _, hdash, htwo _⟩, hdash, htwo _⟩, hdash, htwo _⟩, hdash, htwo _⟩,
      hite _ (by decide) (by decide), by decide, hdash, fun _ h => nomatch h⟩, hword⟩
  exact hall c h

lemma backupName_ne_nil : backupName t ≠ [] := by simp [backupName_eq]

lemma leadsBelow_backupName : Dcm.leadsBelow (backupName t) = true := by
  have hdot : '.' ∉ backupName t := fun h => absurd (mem_backupChars h) (by decide)
  refine decide_eq_true ⟨backupName_ne_nil, ?_, ?_⟩
  · rintro h
    rw [h] at hdot
    exact hdot (by decide)
  · rintro h
    rw [h] at hdot
    exact hdot (by decide)

section Reading

variable (hnl : '\n' ∉ logPath) (hzero : Char.ofNat 0 ∉ logPath)

include hnl hzero

/-- A path is read back, with an empty line behind it if it fills the array. -/
lemma listLine_pieces (hfits : Fits logPath (backupName t)) :
    (∀ q ∈ pieces Dcm.lineSize (pathOf logPath (backupName t) ++ ['\n']),
        Dcm.listLine q = pathOf logPath (backupName t) ∨ Dcm.listLine q = []) ∧
      ∃ q ∈ pieces Dcm.lineSize (pathOf logPath (backupName t) ++ ['\n']),
        Dcm.listLine q = pathOf logPath (backupName t) := by
  have hnot : ∀ c, c ∉ logPath → c ∉ backupChars → c ≠ '/' →
      c ∉ pathOf logPath (backupName t) := by
    intro c hlog hchars hslash hmem
    rcases List.mem_append.mp hmem with hmem | hmem
    · exact hlog hmem
    · rcases List.mem_cons.mp hmem with rfl | hmem
      · exact hslash rfl
      · exact hchars (mem_backupChars hmem)
  have hnl' := hnot '\n' hnl (by decide) (by decide)
  obtain ⟨hline, hline'⟩ := listLine_of_line hnl' (hnot _ hzero (by decide) (by decide))
  have hempty : Dcm.listLine ['\n'] = [] := by decide
  have hle : (pathOf logPath (backupName t)).length ≤ Dcm.lineSize := Nat.le_of_lt_succ hfits
  rcases piecesFrom_line Dcm.lineSize [] hnl' (by decide) hle with h | h
  · rw [pieces, h]
    simp [hline']
  · rw [pieces, h]
    simp [hline, hempty]

lemma Lists.listLine {paths : List (List Char)} {list : List Char}
    (h : Lists logPath paths list) :
    (∀ q ∈ pieces Dcm.lineSize list, Dcm.listLine q ∈ paths ∨ Dcm.listLine q = []) ∧
      ∀ p ∈ paths, ∃ q ∈ pieces Dcm.lineSize list, Dcm.listLine q = p := by
  have hclosed : ∀ p : List Char, Closed (p ++ ['\n']) := fun p => Or.inr ⟨p, rfl⟩
  rw [h.eq, pieces_flatMap hclosed]
  constructor
  · intro q hq
    obtain ⟨p, hp, hq⟩ := List.mem_flatMap.mp hq
    obtain ⟨t, rfl, hfits⟩ := h.path p hp
    refine ((listLine_pieces hnl hzero hfits).1 q hq).imp_left fun heq => ?_
    rw [heq]
    exact hp
  · intro p hp
    obtain ⟨t, rfl, hfits⟩ := h.path p hp
    obtain ⟨q, hq, hline⟩ := (listLine_pieces hnl hzero hfits).2
    exact ⟨q, List.mem_flatMap.mpr ⟨_, hp, hq⟩, hline⟩

variable {env : Dcm.Env} (hfetches : Fetches env s logPath (backupName t) n)

include hfetches

/-- The backup is the one that is copied under its name. -/
lemma Lists.batchAt {paths : List (List Char)} {list : List Char} (h : Lists logPath paths list)
    (hmem : pathOf logPath (backupName t) ∈ paths) {logs : Directory Node}
    (hlogs : logs.lookup Dcm.listName = some (.regular list)) :
    ∃ i, Dcm.batchAt env (some logs) (backupName t) =
      some (.directory (Dcm.copyDirRecursive (env.batch i)
        (Reboot.cleanupOldArchives env.unlinks [backupName t]
          (s.backups (pathOf logPath (backupName t)))) [])) := by
  obtain ⟨hlines, hpaths⟩ := h.listLine hnl hzero
  have hslash : ∀ t, '/' ∉ backupName t := fun t h => absurd (mem_backupChars h) (by decide)
  have hcontent : Dcm.listContent env logs = list := by
    rw [Dcm.listContent, Option.getD_some, hlogs]
    exact if_pos ⟨by simp [hfetches.uploadOnReboot], hfetches.opensList⟩
  obtain ⟨q, hq, hline⟩ := hpaths _ hmem
  have hdelivers : ∀ i, Dcm.Delivers env (backupName t) (q, i) = true := by
    intro i
    refine decide_eq_true ⟨?_, ?_, ?_, leadsBelow_backupName, hfetches.creates i⟩
    · rw [hline]
      exact Reboot.pathOf_ne_nil _ _
    · rw [hline, hfetches.listed]
      rfl
    · rw [hline, baseName_pathOf (hslash t)]
  obtain ⟨i, hi⟩ : ∃ i, (q, i) ∈ (pieces Dcm.lineSize list).zipIdx := by
    obtain ⟨i, hi, rfl⟩ := List.mem_iff_getElem.mp hq
    exact ⟨i, List.mem_zipIdx_iff_getElem?.mpr (List.getElem?_eq_getElem hi)⟩
  have hfound : ((Dcm.listLines list).find? (Dcm.Delivers env (backupName t))).isSome :=
    List.find?_isSome.mpr ⟨(q, i), hi, hdelivers i⟩
  obtain ⟨⟨q', i'⟩, hfind⟩ := Option.isSome_iff_exists.mp hfound
  have hdelivered : Dcm.Delivers env (backupName t) (q', i') = true := List.find?_some hfind
  have hmem' := List.fst_mem_of_mem_zipIdx (List.mem_of_find?_eq_some hfind)
  obtain ⟨hne, -, hbase, -, -⟩ := of_decide_eq_true hdelivered
  have hline' : Dcm.listLine q' = pathOf logPath (backupName t) := by
    obtain ⟨t', heq, -⟩ := h.path _ ((hlines q' hmem').resolve_right hne)
    rw [heq, baseName_pathOf (hslash t')] at hbase
    rw [heq, hbase]
  refine ⟨i', ?_⟩
  rw [Dcm.batchAt, hcontent, hfind, Option.map_some, Dcm.batchOf, hline', hfetches.listed]
  rfl

end Reading

/-! ### The DCM run -/

lemma infix_of_strstr {rep s : List Char} (h : (Cron.strstr rep s).isSome) : rep <:+: s := by
  induction s with
  | nil =>
    rw [Cron.strstr] at h
    split_ifs at h with hnil
    · exact hnil ▸ List.nil_infix
    · cases h
  | cons c s ih =>
    rw [Cron.strstr] at h
    split_ifs at h with hpre
    · exact (List.isPrefixOf_iff_prefix.mp hpre).isInfix
    · rw [Option.isSome_map] at h
      exact (ih h).trans (List.suffix_cons c s).isInfix

/-- The name of a packet capture has a dot in it. -/
lemma dot_mem_newestPcap {calls : Reboot.PackCalls} {l : Directory Node}
    (h : Reboot.newestPcap calls l = some m) : '.' ∈ m := by
  rw [Reboot.newestPcap] at h
  revert h
  refine List.foldlRecOn (motive := fun newest : ℤ × Option Name => newest.2 = some m → '.' ∈ m)
    l _ ?_ ?_
  · intro hnone
    cases hnone
  · intro newest hnewest e _
    by_cases hpcap : ¬Reboot.isDirectory e.2 ∧ (Cron.strstr ".pcap".toList e.1).isSome
    · rw [if_pos hpcap]
      cases calls.modTime e.1 with
      | none => exact hnewest
      | some t =>
        dsimp only
        split_ifs
        · intro hm
          obtain rfl := Option.some.inj hm
          exact (infix_of_strstr hpcap.2).subset (by decide)
        · exact hnewest
    · rw [if_neg hpcap]
      exact hnewest

/-- Names that the loop gives have the old name at their end. -/
lemma notMem_addTimestampToFiles {env : Dcm.Env} (h : ∀ k ∈ d.names, ¬k <:+ m) :
    m ∉ (Dcm.addTimestampToFiles env d).names := by
  have hstep : ∀ (timestamp : List Char) (l : List Name) (d : Directory Node),
      (∀ k ∈ d.names, ¬k <:+ m) →
      ∀ k ∈ (l.foldl (Reboot.renameEntry env.renames
        (Reboot.stampedName env.dcmLogPath timestamp)) d).names, ¬k <:+ m := by
    intro timestamp l
    induction l with
    | nil => exact fun d h => h
    | cons n l ih =>
      intro d h
      refine ih _ ?_
      unfold Reboot.renameEntry
      cases hnew : Reboot.stampedName env.dcmLogPath timestamp n with
      | none => exact h
      | some k =>
        have hk : k = timestamp ++ n := by
          rw [Reboot.stampedName] at hnew
          split_ifs at hnew
          exact (Option.some.inj hnew).symm
        dsimp only
        split_ifs
        · intro k' hk'
          rcases Directory.mem_names_rename hk' with ⟨rfl, hn⟩ | ⟨hk', -⟩
          · rw [hk]
            exact fun hsuffix => h n hn ((List.suffix_append _ _).trans hsuffix)
          · exact h k' hk'
        · exact h
  rw [Dcm.addTimestampToFiles]
  cases env.timestamp with
  | none => exact fun hmem => h m hmem (List.suffix_refl m)
  | some timestamp =>
    dsimp only
    cases env.readdir d with
    | none => exact fun hmem => h m hmem (List.suffix_refl m)
    | some entries => exact fun hmem => hstep timestamp entries d h m hmem (List.suffix_refl m)

lemma lookup_copyDirRecursive {calls : Dcm.TreeCalls} (hopens : calls.opens [] = true)
    (hcopies : ((calls.copy []).copyFile n (.regular content) none).1 = true)
    (hnodup : d.names.Nodup) (h : d.lookup n = some (.regular content)) :
    (Dcm.copyDirRecursive calls d []).lookup n = some (.regular content) := by
  rw [Dcm.copyDirRecursive, if_pos hopens, Dcm.lookup_copyEntries hnodup, h]
  dsimp only
  rw [Dcm.copyNode]
  exact (calls.copy []).regular n content none hcopies

/-- What the boots have left for the DCM run. -/
lemma exists_listed {before after : List Boot} (hbefore : ∀ b' ∈ before, b'.Regular logPath)
    (hb : b.Regular logPath) (hsaves : b.Saves time name n content d)
    (hafter : ∀ b' ∈ after, b'.Leaves logPath name)
    {backups : List Char → Directory Node} (hnodup : ∀ q, (backups q).names.Nodup)
    (hstore : (before ++ b :: after).foldl (fun s b => b.run s) ⟨[], backups⟩ = s) :
    (∃ paths, pathOf logPath name ∈ paths ∧ Lists logPath paths s.list) ∧
      (s.backups (pathOf logPath name)).names.Nodup ∧
        (s.backups (pathOf logPath name)).lookup n = some (.regular content) := by
  obtain ⟨s₁, hs₁⟩ : ∃ s₁, s₁ = before.foldl (fun s b => b.run s) ⟨[], backups⟩ := ⟨_, rfl⟩
  have hnodup₁ : ∀ q, (s₁.backups q).names.Nodup := fun q => hs₁ ▸ nodup_foldl_run hnodup q
  rw [List.foldl_append, ← hs₁, List.foldl_cons] at hstore
  have hempty : Lists logPath [] (Store.mk [] backups).list := ⟨rfl, fun p hp => nomatch hp⟩
  obtain ⟨paths, hpaths⟩ := hempty.foldl_run hbefore
  rw [List.nil_append, ← hs₁] at hpaths
  have hlog := hsaves.lookup_run s₁
  rw [hb.logPath_eq] at hlog
  obtain ⟨rest, hrest⟩ := (hpaths.run_of_saves hb hsaves).foldl_run fun b' hb' =>
    (hafter b' hb').regular
  subst hstore
  refine ⟨⟨_, ?_, hrest⟩, nodup_foldl_run (nodup_run b hnodup₁) _,
    lookup_foldl_run hafter hsaves.kept.1 (nodup_run b hnodup₁) hlog⟩
  exact List.mem_append_left _ (List.mem_append_right _ (List.mem_singleton_self _))

/-- Every call succeeds. -/
def sampleBoot : Boot where
  env := .succeeding true
  prev := some Reboot.messages
  opensList := true
  unlinks _ _ := true

/-- The next boot finds no logs, and cannot tell the time. -/
def nextBoot : Boot := { sampleBoot with
  env := { Reboot.Env.succeeding false with permTimestamp := none }
  prev := none }

def sampleStore : Store := [sampleBoot, nextBoot].foldl (fun s b => b.run s) ⟨[], fun _ => []⟩

def sampleEnv : Dcm.Env := { Dcm.sampleEnv with
  listed := fun p => some (Reboot.cleanupOldArchives (fun _ => true)
    ["11-30-25-03-45PM-logbackup".toList] (sampleStore.backups p)) }

def sampleLogs : Directory Node := [(Dcm.listName, .regular sampleStore.list)]

lemma backupName_afternoon : backupName 1764517500 = "11-30-25-03-45PM-logbackup".toList := by
  rw [backupName_eq, Reboot.stamp_afternoon]
  decide

lemma regular_sampleBoot : sampleBoot.Regular "/opt/logs".toList := by
  refine ⟨rfl, fun name hname => ⟨1764517500, ?_⟩⟩
  rw [backupName_afternoon]
  exact (Option.some.inj hname).symm

lemma saves_sampleBoot : sampleBoot.Saves 1764517500 (backupName 1764517500) "messages.txt".toList
    ['a'] Reboot.messages := by
  have hclean := Reboot.cleanupOldArchives_messages sampleBoot.env.unlinks
  constructor
  case prev => rfl
  case unstamped =>
    refine ⟨⟨by decide +kernel, by decide +kernel⟩, ?_⟩
    rw [Reboot.stamp_afternoon]
    decide +kernel
  case lookup => rfl
  case kept => decide +kernel
  case timestamp => exact congrArg some Reboot.stamp_afternoon.symm
  case permTimestamp => exact congrArg some backupName_afternoon.symm
  case setup =>
    intro backups
    have hprev : sampleBoot.prev = some Reboot.messages := rfl
    rw [hprev, Reboot.State.cleanupOldArchives, Option.map_some, hclean]
    rfl
  case packs =>
    rw [hclean]
    exact Reboot.packs_messages true
  case restores =>
    refine ⟨fun _ => Option.some_ne_none _, rfl, ?_⟩
    rw [Reboot.stamp_afternoon]
    decide +kernel
  case creates => rfl
  case reads => exact fun _ => Option.some_ne_none _
  case moves =>
    rw [backupName_afternoon]
    decide +kernel
  case lists => decide +kernel

lemma fetches_sampleEnv : Fetches sampleEnv sampleStore "/opt/logs".toList (backupName 1764517500)
    "messages.txt".toList := by
  refine ⟨rfl, rfl, ?_, fun _ => rfl, fun _ => rfl, fun _ _ => rfl⟩
  rw [backupName_afternoon]
  rfl

def samplePath : List Char := pathOf "/opt/logs".toList "11-30-25-03-45PM-logbackup".toList

lemma permLogPath_nextBoot (s : Store) : (nextBoot.last s).statics.permLogPath = [] :=
  (permLogPath_last nextBoot s).resolve_right fun ⟨_, hname, _⟩ => nomatch hname

lemma backups_sampleStore : sampleStore.backups samplePath = Reboot.messages := by
  have hrun : (sampleBoot.run ⟨[], fun _ => []⟩).backups samplePath = Reboot.messages := by
    have hclean : sampleBoot.cleaned ⟨[], fun _ => []⟩ = fun _ => [] := by
      funext p
      rw [Boot.cleaned, Reboot.cleanupOldArchives]
    have hprev : sampleBoot.prev = some Reboot.messages := rfl
    rw [Boot.run, hclean, executeStrategyWorkflow]
    simp only [Reboot.State.cleanupOldArchives, hprev, Option.map_some,
      Reboot.cleanupOldArchives_messages]
    rfl
  obtain ⟨old, hold, hlast⟩ := backups_last nextBoot (sampleBoot.run ⟨[], fun _ => []⟩) samplePath
  obtain rfl := hold.resolve_right fun h => Bool.false_ne_true h.1
  have hlast := hlast.resolve_right fun h => by
    rw [permLogPath_nextBoot] at h
    exact Reboot.pathOf_ne_nil _ _ h.1
  rw [Boot.cleaned, hrun, Reboot.cleanupOldArchives_messages] at hlast
  exact (congrFun (backups_run nextBoot _) _).trans hlast

lemma list_sampleStore : sampleStore.list = samplePath ++ ['\n'] := by
  have hlist := saves_sampleBoot.list_run ⟨[], fun _ => []⟩
  have hnext := list_run nextBoot (sampleBoot.run ⟨[], fun _ => []⟩)
  have hcreates : ¬Reboot.createDirectory nextBoot.env [] = true := by decide
  rw [permLogPath_nextBoot, if_neg hcreates, hlist, backupName_afternoon] at hnext
  exact hnext

lemma pathsFit_sampleLogs : Dcm.PathsFit sampleEnv (some sampleLogs) = true := by
  have hcontent : Dcm.listContent sampleEnv (some sampleLogs) = samplePath ++ ['\n'] :=
    list_sampleStore
  have hline : ∀ p ∈ Dcm.listLines (samplePath ++ ['\n']), Dcm.listLine p.1 = samplePath := by
    decide +kernel
  rw [Dcm.PathsFit, hcontent]
  refine decide_eq_true ⟨?_, fun p hp => ?_⟩
  · change Dcm.entriesFit _ _ [(Dcm.listName, .regular sampleStore.list)] = true
    rw [Dcm.entriesFit, Dcm.nodeFits, Dcm.entriesFit]
    · decide +kernel
    · exact fun _ h => by cases h
  have hlisted : sampleEnv.listed samplePath = some Reboot.messages := by
    change some (Reboot.cleanupOldArchives _ _ (sampleStore.backups samplePath)) = _
    rw [backups_sampleStore, cleanupOldArchives_eq_self (by decide)]
  rw [hline p hp, hlisted]
  decide +kernel

end DcmAgent.Strategies.Handoff
