import Mathlib.Tactic
import DcmAgent.Upload.Fallback
import DcmAgent.Upload.Run

/-!
# Block discipline

The paths of a session come from `decidePaths`, which respects the block markers. Only the RRD
upload and `uploadlogsnow` call it: the sessions of the workflows keep the zeros they start with,
which read as the direct path twice.
-/

namespace DcmAgent.Upload

variable {ctx : RuntimeContext} {outcomes : ℕ → Outcome} {path : UploadPath}

/-! ### The engine -/

lemma retryUpload_none (c : Cycle) : retryUpload ctx outcomes .none c = (.failed, c) := by
  rw [retryUpload]
  simp [incrementAttempts, singleAttemptUpload, shouldRetry]

/-- A run of a path only attempts this path. -/
lemma mem_attempted_retryUpload {c : Cycle} {p : UploadPath}
    (h : p ∈ (retryUpload ctx outcomes path c).2.attempted) :
    p ∈ c.attempted ∨ (p = path ∧ path ≠ .none) := by
  by_cases hp : path = .none
  · subst hp
    rw [retryUpload_none] at h
    exact Or.inl h
  · obtain ⟨k, hk⟩ := retryUpload_spec ctx outcomes hp c
    rw [hk.attempted, List.mem_append] at h
    exact h.imp_right fun h => ⟨List.eq_of_mem_replicate h, hp⟩

variable (ctx outcomes path) in
lemma paths_retryUpload (c : Cycle) :
    (retryUpload ctx outcomes path c).2.session.primary = c.session.primary ∧
      (retryUpload ctx outcomes path c).2.session.fallback = c.session.fallback := by
  by_cases hp : path = .none
  · subst hp
    rw [retryUpload_none]
    exact ⟨rfl, rfl⟩
  · obtain ⟨k, hk⟩ := retryUpload_spec ctx outcomes hp c
    exact ⟨hk.primary, hk.fallback⟩

variable (ctx outcomes) in
/-- The run of the primary path. -/
def firstRun (session : SessionState) : UploadResult × Cycle :=
  retryUpload ctx outcomes session.primary ⟨session, []⟩

variable (ctx outcomes) in
/-- The run after the switch: it is on the path that was the primary one before. -/
def secondRun (session : SessionState) : UploadResult × Cycle :=
  let first := firstRun ctx outcomes session
  retryUpload ctx outcomes first.2.session.primary
    { first.2 with session := switchToFallback first.2.session }

/-- The end of a cycle, with its verdict. -/
def Cycle.finish (c : Cycle) (usedFallback ok : Bool) : Cycle :=
  { c with session := { c.session with usedFallback := usedFallback, success := ok } }

/-- How a cycle can end. -/
inductive CycleRule (ctx : RuntimeContext) (outcomes : ℕ → Outcome) (session : SessionState) :
    Bool × Cycle → Prop where
  | primary (first) : firstRun ctx outcomes session = first → first.1 = .success →
      CycleRule ctx outcomes session (true, first.2.finish first.2.session.usedFallback true)
  | fallback (first second) : firstRun ctx outcomes session = first → first.1 ≠ .success →
      shouldFallback first.2.session first.1 = true →
      secondRun ctx outcomes session = second → second.1 = .success →
      CycleRule ctx outcomes session (true, second.2.finish true true)
  | exhausted (second) : secondRun ctx outcomes session = second →
      CycleRule ctx outcomes session
        (false, second.2.finish second.2.session.usedFallback false)
  | stopped (first) : firstRun ctx outcomes session = first →
      CycleRule ctx outcomes session (false, first.2.finish first.2.session.usedFallback false)

variable (ctx outcomes) in
lemma CycleRule.of_executeUploadCycle (session : SessionState) :
    CycleRule ctx outcomes session (executeUploadCycle ctx outcomes session) := by
  set first := firstRun ctx outcomes session with hfst
  set second := secondRun ctx outcomes session with hsnd
  by_cases hfirst : first.1 = .success
  · have heq : executeUploadCycle ctx outcomes session =
        (true, first.2.finish first.2.session.usedFallback true) := if_pos hfirst
    rw [heq]
    exact .primary first rfl hfirst
  have hnot : executeUploadCycle ctx outcomes session = _ := if_neg hfirst
  by_cases hfall : shouldFallback first.2.session first.1 = true ∧
      first.2.session.fallback ≠ .none
  · by_cases hsecond : second.1 = .success
    · have heq : executeUploadCycle ctx outcomes session = (true, second.2.finish true true) :=
        hnot.trans ((if_pos hfall).trans (if_pos hsecond))
      rw [heq]
      exact .fallback first second rfl hfirst hfall.1 rfl hsecond
    · have heq : executeUploadCycle ctx outcomes session =
          (false, second.2.finish second.2.session.usedFallback false) :=
        hnot.trans ((if_pos hfall).trans (if_neg hsecond))
      rw [heq]
      exact .exhausted second rfl
  · have heq : executeUploadCycle ctx outcomes session =
        (false, first.2.finish first.2.session.usedFallback false) :=
      hnot.trans (if_neg hfall)
    rw [heq]
    exact .stopped first rfl

variable (ctx outcomes) in
lemma paths_firstRun (session : SessionState) :
    (firstRun ctx outcomes session).2.session.primary = session.primary ∧
      (firstRun ctx outcomes session).2.session.fallback = session.fallback :=
  paths_retryUpload ctx outcomes _ _

variable (ctx outcomes) in
lemma paths_secondRun (session : SessionState) :
    (secondRun ctx outcomes session).2.session.primary = session.fallback ∧
      (secondRun ctx outcomes session).2.session.fallback = session.primary := by
  obtain ⟨hprimary, hfallback⟩ := paths_firstRun ctx outcomes session
  obtain ⟨hp, hf⟩ := paths_retryUpload ctx outcomes
    (firstRun ctx outcomes session).2.session.primary
    { (firstRun ctx outcomes session).2 with
      session := switchToFallback (firstRun ctx outcomes session).2.session }
  exact ⟨hp.trans hfallback, hf.trans hprimary⟩

lemma mem_attempted_firstRun {session : SessionState} {p : UploadPath}
    (h : p ∈ (firstRun ctx outcomes session).2.attempted) : p = session.primary ∧ p ≠ .none := by
  obtain h | ⟨rfl, hne⟩ := mem_attempted_retryUpload h
  · cases h
  · exact ⟨rfl, hne⟩

lemma mem_attempted_secondRun {session : SessionState} {p : UploadPath}
    (h : p ∈ (secondRun ctx outcomes session).2.attempted) : p = session.primary ∧ p ≠ .none := by
  obtain h | ⟨rfl, hne⟩ := mem_attempted_retryUpload h
  · exact mem_attempted_firstRun h
  · exact ⟨(paths_firstRun ctx outcomes session).1, hne⟩

/-- A cycle only attempts the primary path it starts with. -/
lemma mem_attempted_executeUploadCycle {session : SessionState} {p : UploadPath}
    (h : p ∈ (executeUploadCycle ctx outcomes session).2.attempted) :
    p = session.primary ∧ p ≠ .none := by
  have hrule := CycleRule.of_executeUploadCycle ctx outcomes session
  generalize executeUploadCycle ctx outcomes session = r at h hrule
  cases hrule with
  | primary _ hfirst => exact mem_attempted_firstRun (hfirst ▸ h)
  | fallback _ _ _ _ _ hsecond => exact mem_attempted_secondRun (hsecond ▸ h)
  | exhausted _ hsecond => exact mem_attempted_secondRun (hsecond ▸ h)
  | stopped _ hfirst => exact mem_attempted_firstRun (hfirst ▸ h)

variable (ctx outcomes) in
/-- A cycle leaves the paths of the session as they are, or swaps them. -/
lemma paths_executeUploadCycle (session : SessionState) :
    let s := (executeUploadCycle ctx outcomes session).2.session
    (s.primary = session.primary ∧ s.fallback = session.fallback) ∨
      (s.primary = session.fallback ∧ s.fallback = session.primary) := by
  have hrule := CycleRule.of_executeUploadCycle ctx outcomes session
  generalize executeUploadCycle ctx outcomes session = r at hrule
  cases hrule with
  | primary _ hfirst => exact Or.inl (hfirst ▸ paths_firstRun ctx outcomes session)
  | fallback _ _ _ _ _ hsecond => exact Or.inr (hsecond ▸ paths_secondRun ctx outcomes session)
  | exhausted _ hsecond => exact Or.inr (hsecond ▸ paths_secondRun ctx outcomes session)
  | stopped _ hfirst => exact Or.inl (hfirst ▸ paths_firstRun ctx outcomes session)

/-! ### Workflows -/

variable {env : RunEnv} {c : Context} {s : RunState}

/-- The decision, by the two markers and the access. -/
lemma decidedPaths_eq (access : Bool) : decidedPaths c access =
    match c.directBlocked, c.codebigBlocked || !access with
    | false, false => (.direct, .codebig)
    | true, false => (.codebig, .none)
    | false, true => (.direct, .none)
    | true, true => (.none, .none) := by
  cases hd : c.directBlocked <;> cases hc : c.codebigBlocked <;> cases access <;>
    simp [decidedPaths, hd, hc]

/-- The direct path is chosen when it is not blocked. -/
lemma not_directBlocked {access : Bool} (h : (decidedPaths c access).1 = .direct) :
    c.directBlocked = false := by
  rw [decidedPaths_eq] at h
  split at h <;> simp_all

lemma not_codebigBlocked {access : Bool} (h : (decidedPaths c access).1 = .codebig) :
    c.codebigBlocked = false := by
  rw [decidedPaths_eq] at h
  split at h <;> simp_all

lemma decidedPaths_ne (access : Bool) : decidedPaths c access ≠ (.direct, .direct) := by
  rw [decidedPaths_eq]
  split <;> simp

/-- The direct path is the primary one and the fallback, in the session and in all runs of the
engine so far, and nothing else has been attempted. -/
structure DirectTwice (s : RunState) : Prop where
  primary : s.session.primary = .direct
  fallback : s.session.fallback = .direct
  cycles : ∀ t ∈ s.cycles, t.primary = .direct ∧ t.fallback = .direct
  attempted : ∀ t ∈ s.cycles, ∀ p ∈ t.attempted, p = .direct

lemma DirectTwice.uploadCycle (h : DirectTwice s) :
    DirectTwice (s.uploadCycle c outcomes).2 := by
  have hpaths := paths_executeUploadCycle c.toRuntimeContext outcomes s.session
  rw [h.primary, h.fallback, or_self] at hpaths
  refine ⟨hpaths.1, hpaths.2, ?_, ?_⟩
  · intro t ht
    rcases List.mem_append.mp ht with ht | ht
    · exact h.cycles t ht
    · obtain rfl := List.mem_singleton.mp ht
      exact ⟨h.primary, h.fallback⟩
  · intro t ht p hp
    rcases List.mem_append.mp ht with ht | ht
    · exact h.attempted t ht p hp
    · obtain rfl := List.mem_singleton.mp ht
      exact (mem_attempted_executeUploadCycle hp).1.trans h.primary

lemma DirectTwice.uploadArchive (h : DirectTwice s) {ready : Bool} :
    DirectTwice (uploadArchive c ready outcomes s).2 := by
  unfold Upload.uploadArchive
  split_ifs
  · exact h.uploadCycle
  · exact h

lemma DirectTwice.driUpload (h : DirectTwice s) : DirectTwice (driUpload env c s) := by
  unfold Upload.driUpload
  split_ifs
  · have hdri : DirectTwice
        { s with session := { s.session with directAttempts := 0, codebigAttempts := 0 } } :=
      ⟨h.primary, h.fallback, h.cycles, h.attempted⟩
    exact ⟨h.primary, h.fallback, hdri.uploadArchive.cycles, hdri.uploadArchive.attempted⟩
  · exact h

lemma DirectTwice.rebootUpload (h : DirectTwice s) : DirectTwice (rebootUpload env c s).2 := by
  unfold Upload.rebootUpload
  split_ifs
  · exact h.uploadArchive.driUpload
  · exact h
  · exact h

lemma DirectTwice.workflow (h : DirectTwice s) (strategy : Strategy) :
    DirectTwice (executeStrategyWorkflow env c strategy s).2 := by
  unfold executeStrategyWorkflow
  split
  · exact h
  · rename_i uploadPhase hphase
    split_ifs
    · cases strategy <;> cases hphase
      · exact h.rebootUpload
      · unfold ondemandUpload
        split_ifs
        · exact h
        · exact h.uploadArchive
      · exact h.rebootUpload
      · unfold dcmUpload
        split_ifs
        · exact h.uploadArchive
        · exact h
    · exact h

@[simp] lemma cycles_finalize : (finalize env s).cycles = s.cycles := by
  unfold finalize updateBlockMarkers
  split_ifs <;> rfl

lemma directTwice_start (markers : Markers) : DirectTwice (.start markers) :=
  ⟨rfl, rfl, by simp [RunState.start], by simp [RunState.start]⟩

lemma earlyChecks_eq_rrd : earlyChecks c = .rrd ↔ c.rrdFlag = 1 := by
  unfold earlyChecks
  split_ifs with h <;> simp [h]

/-! ### Runs -/

/-- The two entry points of the library. -/
inductive Request where
  | run (params : RunParams)
  | execute (argv : List (List Char))

def Request.context (env : RunEnv) : Request → Context
  | .run params => (initContext env).2.1.ofParams params
  | .execute argv => parseArgs argv (initContext env).2.1

def Request.exec (env : RunEnv) : Request → ℤ × RunState
  | .run params => uploadstblogsRun env params
  | .execute argv => uploadstblogsExecute env argv

/-- The session of a run of the engine has the paths that the markers and the access to CodeBig
allow, and so no blocked path is attempted. -/
structure KeepsBlocks (c : Context) (access : Bool) (t : CycleTrace) : Prop where
  paths : (t.primary, t.fallback) = decidedPaths c access
  direct : c.directBlocked = true → .direct ∉ t.attempted
  codebig : c.codebigBlocked = true → .codebig ∉ t.attempted
  available : c.directBlocked = false → c.codebigBlocked = false → access = true →
    t.fallback = .codebig

/-- A session from `decidePaths` keeps the blocks. -/
lemma keepsBlocks_decidePaths (access : Bool) (session : SessionState) :
    let session' := decidePaths c access session
    KeepsBlocks c access ⟨session'.primary, session'.fallback,
      (executeUploadCycle c.toRuntimeContext outcomes session').2.attempted,
      (executeUploadCycle c.toRuntimeContext outcomes session').1⟩ := by
  intro session'
  refine ⟨rfl, ?_, ?_, ?_⟩
  · intro hblocked hmem
    have hfree := not_directBlocked (mem_attempted_executeUploadCycle hmem).1.symm
    simp [hfree] at hblocked
  · intro hblocked hmem
    have hfree := not_codebigBlocked (mem_attempted_executeUploadCycle hmem).1.symm
    simp [hfree] at hblocked
  · intro hdirect hcodebig haccess
    simp [session', decidePaths, decidedPaths, hdirect, hcodebig, haccess]

/-- The sessions of a workflow do not. -/
lemma DirectTwice.not_keepsBlocks (h : DirectTwice s) (hne : s.cycles ≠ []) (access : Bool) :
    ¬∀ t ∈ s.cycles, KeepsBlocks c access t := by
  intro hall
  obtain ⟨t, ht⟩ := List.exists_mem_of_ne_nil _ hne
  obtain ⟨hp, hf⟩ := h.cycles t ht
  exact decidedPaths_ne access (by rw [← (hall t ht).paths, hp, hf])

@[simp] lemma cycles_workflowRun (strategy : Strategy) :
    (workflowRun env c strategy s).2.cycles =
      (executeStrategyWorkflow env c strategy s).2.cycles := by
  unfold workflowRun
  by_cases hr : (executeStrategyWorkflow env c strategy s).1 = true <;> simp [hr]

lemma rrdRun_keepsBlocks (markers : Markers) :
    ∀ t ∈ (rrdRun env c (.start markers)).2.cycles, KeepsBlocks c env.codebigAccess t := by
  unfold rrdRun
  by_cases hfile : env.rrdFileExists = true
  · simp [hfile, RunState.uploadCycle, RunState.start, keepsBlocks_decidePaths]
  · simp [hfile, RunState.start]

lemma runStrategy_keepsBlocks (markers : Markers)
    (hne : (runStrategy env c (.start markers)).2.cycles ≠ []) :
    (∀ t ∈ (runStrategy env c (.start markers)).2.cycles, KeepsBlocks c env.codebigAccess t) ↔
      c.rrdFlag = 1 := by
  rw [← earlyChecks_eq_rrd]
  unfold runStrategy at hne ⊢
  cases hstrategy : earlyChecks c with
  | rrd => simpa [hstrategy] using rrdRun_keepsBlocks markers
  | privacyAbort => simp [hstrategy, RunState.start] at hne
  | _ =>
    simp only [hstrategy, cycles_workflowRun] at hne
    simpa [hstrategy] using ((directTwice_start markers).workflow _).not_keepsBlocks hne _

lemma executeUploadlogsnowWorkflow_keepsBlocks (markers : Markers) :
    ∀ t ∈ (executeUploadlogsnowWorkflow env c (.start markers)).2.cycles,
      KeepsBlocks c env.codebigAccess t := by
  unfold executeUploadlogsnowWorkflow
  split_ifs
  all_goals simp [RunState.uploadCycle, RunState.start, keepsBlocks_decidePaths]

/-- **Block discipline.** In a run that reaches the engine, every session keeps the blocks exactly
when the run is an RRD upload or `uploadlogsnow`. -/
theorem keepsBlocks_iff (env : RunEnv) (r : Request) (h : (r.exec env).2.cycles ≠ []) :
    (∀ t ∈ (r.exec env).2.cycles, KeepsBlocks (r.context env) env.codebigAccess t) ↔
      (r.context env).rrdFlag = 1 ∨ (r.context env).uploadlogsnowMode = true := by
  cases r with
  | run params =>
    simp only [Request.exec, Request.context, uploadstblogsRun] at h ⊢
    have hmode : ((initContext env).2.1.ofParams params).uploadlogsnowMode = false := rfl
    rw [hmode]
    split_ifs at h ⊢
    · simpa using runStrategy_keepsBlocks _ h
    all_goals simp [RunState.start] at h
  | execute argv =>
    simp only [Request.exec, Request.context, uploadstblogsExecute] at h ⊢
    split_ifs at h ⊢ with hlock hinit hmode hvalid
    · simpa [hmode] using executeUploadlogsnowWorkflow_keepsBlocks _
    · simpa [hmode] using runStrategy_keepsBlocks _ h
    all_goals simp [RunState.start] at h

/-- An environment in which everything works but the attempts, which end with these results. -/
def RunEnv.working (results : List UploadResult) : RunEnv where
  lockAcquired := true
  parametersLoaded := true
  deviceType := []
  privacyDoNotShare := false
  markers := ⟨.absent, .absent⟩
  directBlockTime := 86400
  codebigBlockTime := 1800
  now := 1000000
  directUnlinkOk := true
  codebigUnlinkOk := true
  systemValid := true
  codebigAccess := true
  rrdFileExists := true
  dcmDirCreated := true
  copiedFiles := 1
  setupOk := true
  archive := .complete
  archivePathFits := true
  archiveReady := true
  scheduledReboot := false
  disableUnscheduledUpload := false
  driDirExists := false
  driArchiveOk := true
  driPathFits := true
  driArchiveReady := true
  cleanupOk := true
  finalizeTime := 1000100
  outcomes := fun n => attempt (results.getD n .failed)
  driOutcomes := fun n => attempt (results.getD n .failed)
where
  /-- An attempt that does not succeed has met an error of the server. -/
  attempt (result : UploadResult) : Outcome := ⟨result, if result = .success then 200 else 500, 0⟩

/-- An upload of one archive through the library, and one with the log files of the device. -/
def rrdParams : RunParams := ⟨0, 0, false, .scheduled, true⟩

def ondemandParams : RunParams := ⟨1, 1, false, .ondemand, false⟩

/-- The direct path is blocked for another hour: the RRD upload goes through CodeBig. -/
theorem blocked_rrd_keepsBlocks :
    let env := { RunEnv.working [.success] with markers := ⟨.present 920000, .absent⟩ }
    ((Request.run rrdParams).exec env).2.cycles ≠ [] ∧
      ∀ t ∈ ((Request.run rrdParams).exec env).2.cycles,
        KeepsBlocks ((Request.run rrdParams).context env) env.codebigAccess t := by
  intro env
  have hne : ((Request.run rrdParams).exec env).2.cycles ≠ [] := by decide +kernel
  exact ⟨hne, (keepsBlocks_iff env (.run rrdParams) hne).mpr (Or.inl (by decide +kernel))⟩

/-- With the same marker an upload on demand attempts the direct path. -/
theorem blocked_ondemand_attempts_direct :
    let env := { RunEnv.working [.success] with markers := ⟨.present 920000, .absent⟩ }
    ((Request.run ondemandParams).context env).directBlocked = true ∧
      ∃ t ∈ ((Request.run ondemandParams).exec env).2.cycles, .direct ∈ t.attempted ∧
        ¬KeepsBlocks ((Request.run ondemandParams).context env) env.codebigAccess t := by
  intro env
  have hblocked : ((Request.run ondemandParams).context env).directBlocked = true := by
    decide +kernel
  have hdirect : ∃ t ∈ ((Request.run ondemandParams).exec env).2.cycles, .direct ∈ t.attempted := by
    decide +kernel
  obtain ⟨t, ht, hmem⟩ := hdirect
  exact ⟨hblocked, t, ht, hmem, fun h => h.direct hblocked hmem⟩

end DcmAgent.Upload
