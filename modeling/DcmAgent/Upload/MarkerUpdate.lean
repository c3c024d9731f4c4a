import Mathlib.Tactic
import DcmAgent.Upload.Blocks

/-!
# The update of the block markers

A success through CodeBig blocks the direct path, and a failure of CodeBig blocks CodeBig.
`updateBlockMarkers` takes every use of the fallback for an upload through CodeBig, but the second
run of the engine is on the primary path again.
-/

namespace DcmAgent.Upload

variable {ctx : RuntimeContext} {outcomes : ℕ → Outcome} {path : UploadPath}

/-! ### The engine -/

/-- The attempts on CodeBig that the counter has missed. -/
def Cycle.uncounted (c : Cycle) : ℤ := c.attempted.count .codebig - c.session.codebigAttempts

lemma uncounted_attempt (c : Cycle) :
    (singleAttemptUpload outcomes
      { c with session := incrementAttempts c.session path } path).2.uncounted = c.uncounted := by
  cases path <;>
    simp [Cycle.uncounted, singleAttemptUpload, incrementAttempts, List.count_append]

lemma uncounted_retryUpload (c : Cycle) :
    (retryUpload ctx outcomes path c).2.uncounted = c.uncounted := by
  fun_induction retryUpload ctx outcomes path c with
  | case1 c attempt hs => exact uncounted_attempt c
  | case2 c attempt hs hr ih => exact ih.trans (uncounted_attempt c)
  | case3 c attempt hs hr => exact uncounted_attempt c

lemma attempted_ne_nil {c : Cycle} (h : (retryUpload ctx outcomes path c).1 = .success) :
    (retryUpload ctx outcomes path c).2.attempted ≠ [] := by
  by_cases hp : path = .none
  · subst hp
    rw [retryUpload_none] at h
    cases h
  · obtain ⟨k, hk⟩ := retryUpload_spec ctx outcomes hp c
    have hpos := hk.isRun.pos
    rw [hk.attempted]
    intro hnil
    have hlen := congrArg List.length hnil
    simp only [List.length_append, List.length_replicate, List.length_nil] at hlen
    omega

lemma usedFallback_retryUpload (c : Cycle) :
    (retryUpload ctx outcomes path c).2.session.usedFallback = c.session.usedFallback := by
  by_cases hp : path = .none
  · subst hp
    rw [retryUpload_none]
  · obtain ⟨k, hk⟩ := retryUpload_spec ctx outcomes hp c
    exact hk.usedFallback

/-- The upload succeeds, but only in the second run. -/
def SucceedsLate (ctx : RuntimeContext) (outcomes : ℕ → Outcome) (session : SessionState) : Prop :=
  (executeUploadCycle ctx outcomes session).1 = true ∧
    (firstRun ctx outcomes session).1 ≠ .success

/-- What the session says about a cycle that starts with a fresh one. -/
structure CycleReport (ctx : RuntimeContext) (outcomes : ℕ → Outcome) (session : SessionState)
    (r : Bool × Cycle) : Prop where
  success : r.2.session.success = r.1
  codebigAttempts : r.2.session.codebigAttempts = r.2.attempted.count .codebig
  late : r.1 = true →
    (r.2.session.usedFallback = true ↔ (firstRun ctx outcomes session).1 ≠ .success)
  last : r.1 = true → r.2.attempted.getLast? = some session.primary
  fallback : r.1 = true → (firstRun ctx outcomes session).1 ≠ .success → session.fallback ≠ .none

lemma getLast?_eq_some_of_forall {α : Type*} {l : List α} {a : α} (hne : l ≠ [])
    (h : ∀ b ∈ l, b = a) : l.getLast? = some a := by
  rw [List.getLast?_eq_some_getLast hne, h _ (List.getLast_mem hne)]

variable (ctx outcomes) in
lemma cycleReport {session : SessionState} (hfallback : session.usedFallback = false)
    (hcodebig : session.codebigAttempts = 0) :
    CycleReport ctx outcomes session (executeUploadCycle ctx outcomes session) := by
  have hfirst0 : (firstRun ctx outcomes session).2.uncounted = 0 := by
    rw [firstRun, uncounted_retryUpload]
    simp [Cycle.uncounted, hcodebig]
  have hsecond0 : (secondRun ctx outcomes session).2.uncounted = 0 := by
    rw [secondRun, uncounted_retryUpload]
    exact hfirst0
  have hused : (firstRun ctx outcomes session).2.session.usedFallback = false := by
    rw [firstRun, usedFallback_retryUpload]
    exact hfallback
  have hcount {c : Cycle} (h : c.uncounted = 0) :
      c.session.codebigAttempts = c.attempted.count .codebig := by
    unfold Cycle.uncounted at h
    omega
  have hrule := CycleRule.of_executeUploadCycle ctx outcomes session
  generalize executeUploadCycle ctx outcomes session = r at hrule
  cases hrule with
  | primary first hfirst hs =>
    subst hfirst
    refine ⟨rfl, hcount hfirst0, fun _ => ?_, fun _ => ?_, fun _ hns => absurd hs hns⟩
    · simp [Cycle.finish, hused, hs]
    · apply getLast?_eq_some_of_forall (attempted_ne_nil hs)
      intro p hp
      exact (mem_attempted_firstRun hp).1
  | fallback first second hfirst hns hfall hsecond hs =>
    subst hfirst hsecond
    refine ⟨rfl, hcount hsecond0, fun _ => ?_, fun _ => ?_, fun _ _ => ?_⟩
    · simp [Cycle.finish, hns]
    · apply getLast?_eq_some_of_forall (attempted_ne_nil hs)
      intro p hp
      exact (mem_attempted_secondRun hp).1
    · have hne := ((shouldFallback_eq_true_iff ..).mp hfall).2.2.1
      rwa [(paths_firstRun ctx outcomes session).2] at hne
  | exhausted second hsecond =>
    subst hsecond
    exact ⟨rfl, hcount hsecond0, by simp, by simp, by simp⟩
  | stopped first hfirst =>
    subst hfirst
    exact ⟨rfl, hcount hfirst0, by simp, by simp, by simp⟩

/-! ### The markers after a run -/

variable {env : RunEnv} {c : Context} {s : RunState}

/-- A marker that has not been created is the old one, unless that has expired and is gone. -/
def BlockMarker.Kept (blockTime now : ℤ) (old new : BlockMarker) : Prop :=
  new = old ∨ ∃ modTime, old = .present modTime ∧ blockTime < now - modTime ∧ new = .absent

/-- The archive has been uploaded, and CodeBig has done it. -/
def RunState.uploadedByCodebig (s : RunState) : Prop :=
  ∃ t ∈ s.cycles, t.ok = true ∧ t.attempted.getLast? = some .codebig

/-- CodeBig has been attempted, and the upload has failed. -/
def RunState.failedWithCodebig (s : RunState) : Prop :=
  ∃ t ∈ s.cycles, t.ok = false ∧ .codebig ∈ t.attempted

/-- The markers after a run: each one is created exactly when there is a reason to block its path,
and is kept otherwise. -/
structure MarkersFollow (env : RunEnv) (s : RunState) : Prop where
  direct : .direct ∈ s.created ↔ s.uploadedByCodebig
  codebig : .codebig ∈ s.created ↔ s.failedWithCodebig
  directCreated : .direct ∈ s.created → s.markers.direct = .present env.finalizeTime
  codebigCreated : .codebig ∈ s.created → s.markers.codebig = .present env.finalizeTime
  directKept : .direct ∉ s.created →
    env.markers.direct.Kept env.directBlockTime env.now s.markers.direct
  codebigKept : .codebig ∉ s.created →
    env.markers.codebig.Kept env.codebigBlockTime env.now s.markers.codebig

lemma kept_isBlocked (blockTime now : ℤ) (unlinkOk : Bool) (m : BlockMarker) :
    m.Kept blockTime now (isBlocked blockTime now unlinkOk m).2 := by
  cases m with
  | present modTime =>
    simp only [isBlocked]
    split_ifs with hage hunlink
    · exact Or.inl rfl
    · exact Or.inr ⟨modTime, rfl, by omega, rfl⟩
    · exact Or.inl rfl
  | _ => exact Or.inl rfl

/-- The markers of a run before the upload. -/
structure MarkersKept (env : RunEnv) (s : RunState) : Prop where
  direct : env.markers.direct.Kept env.directBlockTime env.now s.markers.direct
  codebig : env.markers.codebig.Kept env.codebigBlockTime env.now s.markers.codebig
  created : s.created = []

lemma markersKept_start : MarkersKept env (.start env.markers) :=
  ⟨Or.inl rfl, Or.inl rfl, rfl⟩

variable (env) in
lemma markersKept_initContext : MarkersKept env (.start (initContext env).2.2) :=
  ⟨kept_isBlocked .., kept_isBlocked .., rfl⟩

lemma not_uploadedByCodebig (h : ∀ t ∈ s.cycles, .codebig ∉ t.attempted) :
    ¬s.uploadedByCodebig := by
  rintro ⟨t, ht, -, hlast⟩
  exact h t ht (List.mem_of_getLast? hlast)

lemma not_failedWithCodebig (h : ∀ t ∈ s.cycles, .codebig ∉ t.attempted) :
    ¬s.failedWithCodebig := by
  rintro ⟨t, ht, -, hmem⟩
  exact h t ht hmem

/-- Without an update the markers follow when CodeBig has not been attempted. -/
lemma MarkersKept.follow (h : MarkersKept env s)
    (hattempted : ∀ t ∈ s.cycles, .codebig ∉ t.attempted) : MarkersFollow env s := by
  refine ⟨?_, ?_, by simp [h.created], by simp [h.created], fun _ => h.direct,
    fun _ => h.codebig⟩
  · simp [h.created, not_uploadedByCodebig hattempted]
  · simp [h.created, not_failedWithCodebig hattempted]

/-- The update follows when the session says what has happened. -/
lemma MarkersKept.finalize (h : MarkersKept env s) : MarkersFollow env (finalize env s) ↔
    (s.session.success = true ∧ (s.session.usedFallback = true ∨ 0 < s.session.codebigAttempts) ↔
      s.uploadedByCodebig) ∧
    (s.session.success = false ∧ 0 < s.session.codebigAttempts ↔ s.failedWithCodebig) := by
  have hup : (Upload.finalize env s).uploadedByCodebig ↔ s.uploadedByCodebig := by
    simp [RunState.uploadedByCodebig]
  have hfail : (Upload.finalize env s).failedWithCodebig ↔ s.failedWithCodebig := by
    simp [RunState.failedWithCodebig]
  constructor
  · intro hf
    rw [← hup, ← hfail, ← hf.direct, ← hf.codebig]
    unfold Upload.finalize updateBlockMarkers
    split_ifs with hs hu hb <;> simp_all [createBlockMarker, h.created]
  · rintro ⟨hd, hc⟩
    rw [← hup] at hd
    rw [← hfail] at hc
    refine ⟨?_, ?_, ?_, ?_, ?_, ?_⟩
    · rw [← hd]
      unfold Upload.finalize updateBlockMarkers
      split_ifs with hs hu hb <;> simp_all [createBlockMarker, h.created]
    · rw [← hc]
      unfold Upload.finalize updateBlockMarkers
      split_ifs with hs hu hb <;> simp_all [createBlockMarker, h.created]
    all_goals
      unfold Upload.finalize updateBlockMarkers
      split_ifs <;> simp [createBlockMarker, h.created, h.direct, h.codebig]

/-! ### The RRD upload -/

lemma codebig_mem_attempted {session : SessionState}
    (h : .codebig ∈ (executeUploadCycle ctx outcomes session).2.attempted) :
    session.primary = .codebig :=
  (mem_attempted_executeUploadCycle h).1.symm

/-- CodeBig is never a primary path with a fallback. -/
lemma decidedPaths_codebig {access : Bool} (h : (decidedPaths c access).1 = .codebig) :
    (decidedPaths c access).2 = .none := by
  rw [decidedPaths_eq] at h ⊢
  split at h <;> simp_all

lemma rrdRun_follow (markers : Markers) (h : MarkersKept env (.start markers)) :
    MarkersFollow env (rrdRun env c (.start markers)).2 ↔
      ¬(env.rrdFileExists = true ∧
        SucceedsLate c.toRuntimeContext env.outcomes
          (decidePaths c env.codebigAccess .zero)) := by
  unfold rrdRun
  by_cases hfile : env.rrdFileExists = true
  swap
  · have hkept := h.follow (by simp [RunState.start])
    simp [hfile, hkept]
  simp only [hfile, not_true_eq_false, ↓reduceIte, true_and]
  set session := decidePaths c env.codebigAccess .zero with hsession
  have hreport : CycleReport _ _ session _ :=
    cycleReport c.toRuntimeContext env.outcomes rfl rfl
  have hkept : MarkersKept env ({ RunState.start markers with session := session }.uploadCycle c
      env.outcomes).2 := ⟨h.direct, h.codebig, h.created⟩
  refine hkept.finalize.trans ?_
  have hprimary := @codebig_mem_attempted c.toRuntimeContext env.outcomes session
  simp only [RunState.uploadCycle, RunState.start, RunState.uploadedByCodebig,
    RunState.failedWithCodebig, List.nil_append, List.mem_singleton, exists_eq_left, SucceedsLate,
    hreport.success, hreport.codebigAttempts, Nat.cast_pos, List.count_pos_iff]
  cases hok : (executeUploadCycle c.toRuntimeContext env.outcomes session).1 with
  | false => simp
  | true =>
    simp only [hreport.late hok, hreport.last hok, Option.some.injEq, true_and]
    by_cases hbig : session.primary = .codebig
    · have hfirst : (firstRun c.toRuntimeContext env.outcomes session).1 = .success := by
        by_contra hns
        exact hreport.fallback hok hns (decidedPaths_codebig hbig)
      have hmem := List.mem_of_getLast? (hreport.last hok)
      rw [hbig] at hmem
      simp [hbig, hfirst, hmem]
    · have hno := mt hprimary hbig
      simp [hbig, hno]

/-! ### The workflows -/

/-- The upload phase of a workflow comes to the upload of its archive. -/
def UploadsArchive (env : RunEnv) (c : Context) : Strategy → Prop
  | .ondemand => c.flag ≠ 0 ∧ env.archiveReady = true
  | .dcm => env.archivePathFits = true ∧ env.archiveReady = true
  | .reboot => env.archivePathFits = true ∧ shouldUpload env c = true ∧ env.archiveReady = true
  | .nonDcm => env.archivePathFits = true ∧ shouldUpload env c = true ∧ env.archiveReady = true
  | _ => False

/-- What the upload phase does to the session and to the markers. -/
structure PhaseReport (env : RunEnv) (c : Context) (uploads : Prop) (s : RunState)
    (r : Bool × RunState) : Prop where
  uploaded : uploads →
    r.1 = (executeUploadCycle c.toRuntimeContext env.outcomes s.session).1 ∧
      r.2.session = (executeUploadCycle c.toRuntimeContext env.outcomes s.session).2.session
  skipped : ¬uploads → r.2.session = s.session
  markers : r.2.markers = s.markers
  created : r.2.created = s.created

variable (env c s) in
lemma phaseReport_uploadArchive (ready : Bool) :
    PhaseReport env c (ready = true) s (uploadArchive c ready env.outcomes s) := by
  unfold uploadArchive
  split_ifs with h
  · exact ⟨fun _ => ⟨rfl, rfl⟩, fun hn => absurd h hn, rfl, rfl⟩
  · exact ⟨fun hr => absurd hr h, fun _ => rfl, rfl, rfl⟩

lemma phaseReport_skip {uploads : Prop} (h : ¬uploads) (ok : Bool) :
    PhaseReport env c uploads s (ok, s) :=
  ⟨fun hu => absurd hu h, fun _ => rfl, rfl, rfl⟩

variable (env c s) in
lemma driUpload_frame : (driUpload env c s).session = s.session ∧
    (driUpload env c s).markers = s.markers ∧ (driUpload env c s).created = s.created := by
  unfold driUpload uploadArchive
  split_ifs <;> exact ⟨rfl, rfl, rfl⟩

lemma phaseReport_rebootUpload :
    PhaseReport env c (UploadsArchive env c .reboot) s (rebootUpload env c s) := by
  unfold rebootUpload
  split_ifs with hfits hshould
  · obtain ⟨hup, hskip, hmarkers, hcreated⟩ := phaseReport_uploadArchive env c s env.archiveReady
    obtain ⟨hs, hm, hc⟩ := driUpload_frame env c
      (uploadArchive c env.archiveReady env.outcomes s).2
    refine ⟨?_, ?_, hm.trans hmarkers, hc.trans hcreated⟩
    · rintro ⟨-, -, hready⟩
      exact ⟨(hup hready).1, hs.trans (hup hready).2⟩
    · intro hno
      exact hs.trans (hskip fun hready => hno ⟨hfits, hshould, hready⟩)
  · exact phaseReport_skip (fun h => hshould h.2.1) _
  · exact phaseReport_skip (fun h => hfits h.1) _

lemma phaseReport_handler {strategy : Strategy}
    {uploadPhase : Context → RunState → Bool × RunState}
    (h : getStrategyHandler env strategy = some uploadPhase) :
    PhaseReport env c (UploadsArchive env c strategy) s (uploadPhase c s) := by
  cases strategy <;> cases h
  · exact phaseReport_rebootUpload
  · unfold ondemandUpload
    split_ifs with hflag
    · exact phaseReport_skip (fun h => h.1 hflag) _
    · simpa [UploadsArchive, hflag] using phaseReport_uploadArchive env c s env.archiveReady
  · exact phaseReport_rebootUpload
  · unfold dcmUpload
    split_ifs with hfits
    · simpa [UploadsArchive, hfits] using phaseReport_uploadArchive env c s env.archiveReady
    · exact phaseReport_skip (fun h => hfits h.1) _

/-- The workflow succeeds, with an upload that succeeds late. -/
def LateWorkflow (env : RunEnv) (c : Context) (strategy : Strategy) : Prop :=
  env.setupOk = true ∧ env.archiveOk = true ∧ env.cleanupOk = true ∧
    UploadsArchive env c strategy ∧ SucceedsLate c.toRuntimeContext env.outcomes .zero

lemma DirectTwice.codebig_notMem (h : DirectTwice s) : ∀ t ∈ s.cycles, .codebig ∉ t.attempted := by
  intro t ht hmem
  cases h.attempted t ht _ hmem

/-- The session after a direct upload never counts CodeBig. -/
lemma codebigAttempts_zero :
    (executeUploadCycle ctx outcomes .zero).2.session.codebigAttempts = 0 := by
  have hreport : CycleReport _ _ .zero _ := cycleReport ctx outcomes rfl rfl
  rw [hreport.codebigAttempts, Nat.cast_eq_zero, List.count_eq_zero]
  intro hmem
  cases codebig_mem_attempted hmem

/-- What a workflow leaves for the end of the run. -/
structure WorkflowReport (env : RunEnv) (c : Context) (strategy : Strategy) (r : Bool × RunState) :
    Prop where
  kept : MarkersKept env r.2
  codebigAttempts : r.2.session.codebigAttempts = 0
  late : LateWorkflow env c strategy ↔
    r.1 = true ∧ r.2.session.success = true ∧ r.2.session.usedFallback = true

lemma workflowReport_fail {strategy : Strategy} {markers : Markers} {ok : Bool}
    (h : MarkersKept env (.start markers)) (hlate : ¬LateWorkflow env c strategy) :
    WorkflowReport env c strategy (ok, .start markers) :=
  ⟨h, rfl, by simp [hlate, RunState.start, SessionState.zero]⟩

lemma PhaseReport.workflow {strategy : Strategy} {markers : Markers} {r : Bool × RunState}
    (hphase : PhaseReport env c (UploadsArchive env c strategy) (.start markers) r)
    (h : MarkersKept env (.start markers)) (hready : env.setupOk = true ∧ env.archiveOk = true) :
    WorkflowReport env c strategy (r.1 && env.cleanupOk, r.2) := by
  have hkept : MarkersKept env r.2 := by
    refine ⟨?_, ?_, hphase.created.trans rfl⟩
    · rw [hphase.markers]
      exact h.direct
    · rw [hphase.markers]
      exact h.codebig
  have hreport : CycleReport _ _ .zero _ :=
    cycleReport c.toRuntimeContext env.outcomes rfl rfl
  by_cases hup : UploadsArchive env c strategy
  · obtain ⟨hok, hsession⟩ := hphase.uploaded hup
    replace hok : r.1 = (executeUploadCycle c.toRuntimeContext env.outcomes .zero).1 := hok
    replace hsession : r.2.session =
      (executeUploadCycle c.toRuntimeContext env.outcomes .zero).2.session := hsession
    refine ⟨hkept, ?_, ?_⟩
    · rw [hsession, codebigAttempts_zero]
    · simp only [LateWorkflow, hready.1, hready.2, hup, true_and, hsession, hreport.success,
        SucceedsLate, hok, Bool.and_eq_true]
      constructor
      · rintro ⟨hclean, hr, hns⟩
        exact ⟨⟨hr, hclean⟩, hr, (hreport.late hr).mpr hns⟩
      · rintro ⟨⟨hr, hclean⟩, -, hused⟩
        exact ⟨hclean, hr, (hreport.late hr).mp hused⟩
  · have hsession := hphase.skipped hup
    refine ⟨hkept, ?_, ?_⟩
    · rw [hsession]
      rfl
    · simp [hsession, LateWorkflow, hup, RunState.start, SessionState.zero]

lemma workflowReport (strategy : Strategy) (markers : Markers)
    (h : MarkersKept env (.start markers)) :
    WorkflowReport env c strategy
      (executeStrategyWorkflow env c strategy (.start markers)) := by
  unfold executeStrategyWorkflow
  split
  · rename_i hhandler
    apply workflowReport_fail h
    rintro ⟨-, -, -, hup, -⟩
    cases strategy <;> simp_all [getStrategyHandler, UploadsArchive]
  · rename_i uploadPhase hhandler
    by_cases hready : env.setupOk = true ∧ env.archiveOk = true
    · simpa only [hready, and_self, ↓reduceIte] using
        (phaseReport_handler hhandler).workflow h hready
    · simp only [hready, ↓reduceIte]
      exact workflowReport_fail h fun hl => hready ⟨hl.1, hl.2.1⟩

lemma workflowRun_follow (strategy : Strategy) (markers : Markers)
    (h : MarkersKept env (.start markers)) :
    MarkersFollow env (workflowRun env c strategy (.start markers)).2 ↔
      ¬LateWorkflow env c strategy := by
  have hno := (@DirectTwice.workflow env c _ (directTwice_start markers) strategy).codebig_notMem
  have hreport := workflowReport (c := c) strategy markers h
  unfold workflowRun
  generalize executeStrategyWorkflow env c strategy (.start markers) = r at hno hreport ⊢
  obtain ⟨ok, s⟩ := r
  cases ok with
  | false =>
    have hfollow := hreport.kept.follow hno
    simp [hfollow, hreport.late]
  | true =>
    have hfinal := hreport.kept.finalize
    have hcount : s.session.codebigAttempts = 0 := hreport.codebigAttempts
    simp only [hcount, not_uploadedByCodebig hno, not_failedWithCodebig hno] at hfinal
    simp [hfinal, hreport.late]

/-! ### Every run -/

/-- The part of a run that follows the validation gets to the update of the markers with an upload
that has succeeded late. -/
def LateStrategy (env : RunEnv) (c : Context) : Prop :=
  match earlyChecks c with
  | .privacyAbort => False
  | .rrd => env.rrdFileExists = true ∧
      SucceedsLate c.toRuntimeContext env.outcomes (decidePaths c env.codebigAccess .zero)
  | strategy => LateWorkflow env c strategy

/-- The same of a whole run. -/
def LateRun (env : RunEnv) (params : RunParams) : Prop :=
  env.lockAcquired = true ∧ env.parametersLoaded = true ∧ env.systemValid = true ∧
    LateStrategy env ((initContext env).2.1.ofParams params)

lemma runStrategy_follow (markers : Markers) (h : MarkersKept env (.start markers)) :
    MarkersFollow env (runStrategy env c (.start markers)).2 ↔ ¬LateStrategy env c := by
  unfold runStrategy LateStrategy
  cases earlyChecks c with
  | rrd => exact rrdRun_follow markers h
  | privacyAbort => simp [h.follow (by simp [RunState.start])]
  | _ => exact workflowRun_follow _ markers h

/-- **Block markers.** The markers follow what a run has done exactly when it does not update them
after an upload that has succeeded in the second run of the engine only. -/
theorem markersFollow_iff (env : RunEnv) (params : RunParams) :
    MarkersFollow env (uploadstblogsRun env params).2 ↔ ¬LateRun env params := by
  have hstart : MarkersFollow env (.start env.markers) :=
    markersKept_start.follow (by simp [RunState.start])
  have hinit := markersKept_initContext env
  have hkept := hinit.follow (by simp [RunState.start])
  unfold uploadstblogsRun LateRun
  simp only [show (initContext env).1 = env.parametersLoaded from rfl]
  split_ifs with hlock hparams hvalid
  · simp [hlock, hparams, hvalid, runStrategy_follow _ hinit]
  · simp [hkept, hvalid]
  · simp [hkept, hparams]
  · simp [hstart, hlock]

/-- The direct path fails with HTTP 500 three times and works the fourth time: the markers block
it for a day although it has uploaded the archive. -/
theorem direct_success_blocks_direct :
    let env := RunEnv.working [.failed, .failed, .failed, .success]
    ¬MarkersFollow env (uploadstblogsRun env rrdParams).2 := by
  intro env h
  have hcreated : .direct ∈ (uploadstblogsRun env rrdParams).2.created := by decide +kernel
  have hdirect : ∀ t ∈ (uploadstblogsRun env rrdParams).2.cycles, .codebig ∉ t.attempted := by
    decide +kernel
  exact not_uploadedByCodebig hdirect (h.direct.mp hcreated)

end DcmAgent.Upload
