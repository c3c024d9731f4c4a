import Mathlib.Tactic
import DcmAgent.Upload.MarkerUpdate

/-!
# Blocks from run to run

The markers stay between the runs, which come one after the other. A path is blocked in a run
exactly when an earlier one has created its marker at most the block time ago: a marker is removed
only once it has expired, and a newer one replaces an older one.
-/

namespace DcmAgent.Upload

/-! ### The markers of the paths -/

def Markers.of (m : Markers) : UploadPath → BlockMarker
  | .direct => m.direct
  | .codebig => m.codebig
  | .none => .absent

def RunEnv.blockTime (env : RunEnv) : UploadPath → ℤ
  | .direct => env.directBlockTime
  | .codebig => env.codebigBlockTime
  | .none => 0

def RunEnv.unlinkOk (env : RunEnv) : UploadPath → Bool
  | .direct => env.directUnlinkOk
  | .codebig => env.codebigUnlinkOk
  | .none => false

def Context.blocked (c : Context) : UploadPath → Bool
  | .direct => c.directBlocked
  | .codebig => c.codebigBlocked
  | .none => false

variable {env : RunEnv} {c : Context} {p : UploadPath} {m : Markers} {s : RunState} {t now : ℤ}

lemma of_initContext (env : RunEnv) (p : UploadPath) : (initContext env).2.2.of p =
    (isBlocked (env.blockTime p) env.now (env.unlinkOk p) (env.markers.of p)).2 := by
  cases p <;> rfl

lemma blocked_initContext (env : RunEnv) (p : UploadPath) : (initContext env).2.1.blocked p =
    (isBlocked (env.blockTime p) env.now (env.unlinkOk p) (env.markers.of p)).1 := by
  cases p <;> rfl

lemma blocked_context (env : RunEnv) (r : Request) (p : UploadPath) :
    (r.context env).blocked p = (initContext env).2.1.blocked p := by
  cases r with
  | run params => cases p <;> rfl
  | execute argv =>
    rw [Request.context, parseArgs]
    split_ifs <;> cases p <;> rfl

/-! ### What a run does to the markers -/

/-- The markers that have been created are those of this run, and the others are as before. -/
def Marked (env : RunEnv) (m : Markers) (s : RunState) : Prop :=
  ∀ p, s.markers.of p = if p ∈ s.created then .present env.finalizeTime else m.of p

lemma marked_start (m : Markers) : Marked env m (.start m) := fun p => by simp [RunState.start]

lemma marked_createBlockMarker (hcreated : s.created = []) (p : UploadPath) :
    Marked env s.markers (createBlockMarker env p s) := by
  intro q
  cases p <;> cases q <;> simp [createBlockMarker, Markers.of, hcreated]

lemma marked_finalize (hcreated : s.created = []) : Marked env s.markers (finalize env s) := by
  have hnone : Marked env s.markers s := fun q => by simp [hcreated]
  rw [finalize, updateBlockMarkers]
  split_ifs
  · exact marked_createBlockMarker hcreated _
  · exact hnone
  · exact marked_createBlockMarker hcreated _
  · exact hnone

/-- The phases of a workflow leave the markers alone. -/
lemma markers_executeStrategyWorkflow (env : RunEnv) (c : Context) (strategy : Strategy)
    (s : RunState) : (executeStrategyWorkflow env c strategy s).2.markers = s.markers ∧
      (executeStrategyWorkflow env c strategy s).2.created = s.created := by
  rw [executeStrategyWorkflow]
  cases hhandler : getStrategyHandler env strategy with
  | none => exact ⟨rfl, rfl⟩
  | some uploadPhase =>
    have hreport := phaseReport_handler (c := c) (s := s) hhandler
    dsimp only
    split_ifs
    · exact ⟨hreport.markers, hreport.created⟩
    · exact ⟨rfl, rfl⟩

lemma marked_workflowRun (strategy : Strategy) (m : Markers) :
    Marked env m (workflowRun env c strategy (.start m)).2 := by
  obtain ⟨hmarkers, hcreated⟩ := markers_executeStrategyWorkflow env c strategy (.start m)
  have hnone : (RunState.start m).created = [] := rfl
  rw [workflowRun]
  generalize executeStrategyWorkflow env c strategy (.start m) = r at hmarkers hcreated ⊢
  rw [hnone] at hcreated
  change r.2.markers = m at hmarkers
  rw [← hmarkers]
  by_cases hfailed : ¬r.1
  · rw [if_pos hfailed]
    exact fun q => by simp [hcreated]
  · rw [if_neg hfailed]
    exact marked_finalize hcreated

lemma marked_runStrategy (m : Markers) : Marked env m (runStrategy env c (.start m)).2 := by
  rw [runStrategy]
  cases earlyChecks c with
  | privacyAbort => exact marked_start m
  | rrd =>
    dsimp only
    rw [rrdRun]
    split_ifs
    · exact marked_finalize rfl
    · exact marked_start m
  | _ => exact marked_workflowRun _ m

lemma marked_executeUploadlogsnowWorkflow (m : Markers) :
    Marked env m (executeUploadlogsnowWorkflow env c (.start m)).2 := by
  rw [executeUploadlogsnowWorkflow]
  split_ifs <;> exact marked_start m

/-- A run starts from the markers as they are, or without those that have expired. -/
lemma marked_exec (env : RunEnv) (r : Request) :
    ∃ m, (m = env.markers ∨ m = (initContext env).2.2) ∧ Marked env m (r.exec env).2 := by
  cases r with
  | run params =>
    rw [Request.exec, uploadstblogsRun]
    dsimp only
    split_ifs
    · exact ⟨_, Or.inr rfl, marked_runStrategy _⟩
    · exact ⟨_, Or.inr rfl, marked_start _⟩
    · exact ⟨_, Or.inr rfl, marked_start _⟩
    · exact ⟨_, Or.inl rfl, marked_start _⟩
  | execute argv =>
    rw [Request.exec, uploadstblogsExecute]
    dsimp only
    split_ifs
    · exact ⟨_, Or.inr rfl, marked_executeUploadlogsnowWorkflow _⟩
    · exact ⟨_, Or.inr rfl, marked_runStrategy _⟩
    · exact ⟨_, Or.inr rfl, marked_start _⟩
    · exact ⟨_, Or.inr rfl, marked_start _⟩
    · exact ⟨_, Or.inl rfl, marked_start _⟩

/-! ### Histories -/

/-- When the markers have been created: the runs up to a time, from the start without markers. The
clock is not set back. -/
inductive History (blockTime : UploadPath → ℤ) : ℤ → Markers → (UploadPath → List ℤ) → Prop where
  | start (t : ℤ) : History blockTime t ⟨.absent, .absent⟩ fun _ => []
  | run {t : ℤ} {m : Markers} {created : UploadPath → List ℤ}
      (h : History blockTime t m created) (env : RunEnv) (r : Request)
      (hmarkers : env.markers = m) (hblock : env.blockTime = blockTime) (hnow : t ≤ env.now)
      (hfinal : env.now ≤ env.finalizeTime) :
    History blockTime env.finalizeTime (r.exec env).2.markers fun p =>
      if p ∈ (r.exec env).2.created then env.finalizeTime :: created p else created p

/-- A marker is the last of those that have been created, and is there until it has expired. -/
inductive MarkerInv (blockTime t : ℤ) (created : List ℤ) : BlockMarker → Prop where
  | absent (hexpired : ∀ T ∈ created, T + blockTime < t) : MarkerInv blockTime t created .absent
  | present (T) (hmem : T ∈ created) (hlast : ∀ T' ∈ created, T' ≤ T) :
    MarkerInv blockTime t created (.present T)

lemma MarkerInv.mono {blockTime : ℤ} {created : List ℤ} {marker : BlockMarker}
    (h : MarkerInv blockTime t created marker) (hle : t ≤ now) :
    MarkerInv blockTime now created marker := by
  cases h with
  | absent hexpired => exact .absent fun T hT => (hexpired T hT).trans_le hle
  | present T hmem hlast => exact .present T hmem hlast

/-- A path is blocked while one of its markers is young enough. -/
lemma MarkerInv.isBlocked {blockTime : ℤ} {created : List ℤ} {marker : BlockMarker}
    (h : MarkerInv blockTime now created marker) (unlinkOk : Bool) :
    ((Upload.isBlocked blockTime now unlinkOk marker).1 = true ↔
        ∃ T ∈ created, now ≤ T + blockTime) ∧
      MarkerInv blockTime now created (Upload.isBlocked blockTime now unlinkOk marker).2 := by
  cases h with
  | absent hexpired =>
    refine ⟨⟨fun hblocked => absurd hblocked (by simp [Upload.isBlocked]), ?_⟩, .absent hexpired⟩
    rintro ⟨T, hT, hle⟩
    exact absurd (hexpired T hT) (not_lt.mpr hle)
  | present T hmem hlast =>
    have hnewest : (∃ T' ∈ created, now ≤ T' + blockTime) ↔ now - T ≤ blockTime := by
      constructor
      · rintro ⟨T', hT', hle⟩
        have := hlast T' hT'
        omega
      · intro hle
        exact ⟨T, hmem, by omega⟩
    rw [hnewest, Upload.isBlocked]
    by_cases hle : now - T ≤ blockTime
    · rw [if_pos hle]
      exact ⟨iff_of_true rfl hle, .present T hmem hlast⟩
    · rw [if_neg hle]
      refine ⟨iff_of_false (by simp) hle, ?_⟩
      cases unlinkOk with
      | false => exact .present T hmem hlast
      | true =>
        refine .absent fun T' hT' => ?_
        have := hlast T' hT'
        omega

/-- What has been created is as old as the history. -/
lemma History.le {blockTime : UploadPath → ℤ} {created : UploadPath → List ℤ}
    (h : History blockTime t m created) (p : UploadPath) : ∀ T ∈ created p, T ≤ t := by
  induction h with
  | start t => exact fun T hT => absurd hT List.not_mem_nil
  | run h env r hmarkers hblock hnow hfinal ih =>
    intro T hT
    dsimp only at hT
    split_ifs at hT
    · rcases List.mem_cons.mp hT with rfl | hT
      · exact le_rfl
      · exact ((ih T hT).trans hnow).trans hfinal
    · exact ((ih T hT).trans hnow).trans hfinal

/-- The markers of every history. -/
lemma History.markerInv {blockTime : UploadPath → ℤ} {created : UploadPath → List ℤ}
    (h : History blockTime t m created) (p : UploadPath) :
    MarkerInv (blockTime p) t (created p) (m.of p) := by
  induction h with
  | start t => cases p <;> exact .absent fun T hT => absurd hT List.not_mem_nil
  | run h env r hmarkers hblock hnow hfinal ih =>
    obtain ⟨m', hm', hmarked⟩ := marked_exec env r
    have hinv := ih.mono hnow
    rw [hmarked p]
    dsimp only
    by_cases hcreated : p ∈ (r.exec env).2.created
    · rw [if_pos hcreated, if_pos hcreated]
      refine .present _ List.mem_cons_self fun T hT => ?_
      rcases List.mem_cons.mp hT with rfl | hT
      · exact le_rfl
      · exact ((h.le p T hT).trans hnow).trans hfinal
    · rw [if_neg hcreated, if_neg hcreated]
      rcases hm' with rfl | rfl
      · rw [hmarkers]
        exact hinv.mono hfinal
      · rw [of_initContext, hblock, hmarkers]
        exact (hinv.isBlocked _).2.mono hfinal

/-! ### The next run -/

lemma keepsBlocks_exec (env : RunEnv) (r : Request)
    (h : (r.context env).rrdFlag = 1 ∨ (r.context env).uploadlogsnowMode = true) :
    ∀ c ∈ (r.exec env).2.cycles, KeepsBlocks (r.context env) env.codebigAccess c := by
  have hrrd : ∀ (c : Context) (m : Markers), c.rrdFlag = 1 →
      ∀ t ∈ (runStrategy env c (.start m)).2.cycles, KeepsBlocks c env.codebigAccess t := by
    intro c m hflag t ht
    exact (runStrategy_keepsBlocks m (List.ne_nil_of_mem ht)).mpr hflag t ht
  cases r with
  | run params =>
    have hmode : ((initContext env).2.1.ofParams params).uploadlogsnowMode = false := rfl
    simp only [Request.exec, Request.context, uploadstblogsRun, hmode] at h ⊢
    split_ifs
    · exact hrrd _ _ (h.resolve_right (by decide))
    all_goals simp [RunState.start]
  | execute argv =>
    simp only [Request.exec, Request.context, uploadstblogsExecute] at h ⊢
    split_ifs with hlock hinit hmode hvalid
    · exact executeUploadlogsnowWorkflow_keepsBlocks _
    · exact hrrd _ _ (h.resolve_right hmode)
    all_goals simp [RunState.start]

/-- **Blocks from run to run.** After any runs, from a start without markers, a path is blocked for
the next one exactly when its marker has been created at most the block time ago, and then neither
an RRD upload nor `uploadlogsnow` makes an attempt on it. -/
theorem blocked_iff_created {blockTime : UploadPath → ℤ} {created : UploadPath → List ℤ}
    (h : History blockTime t m created) (env : RunEnv) (hmarkers : env.markers = m)
    (hblock : env.blockTime = blockTime) (hnow : t ≤ env.now) (r : Request) (p : UploadPath) :
    ((r.context env).blocked p = true ↔ ∃ T ∈ created p, env.now ≤ T + blockTime p) ∧
      ((r.context env).rrdFlag = 1 ∨ (r.context env).uploadlogsnowMode = true →
        ∀ c ∈ (r.exec env).2.cycles, p ∈ c.attempted →
          ∀ T ∈ created p, T + blockTime p < env.now) := by
  have hblocked :
      (r.context env).blocked p = true ↔ ∃ T ∈ created p, env.now ≤ T + blockTime p := by
    rw [blocked_context, blocked_initContext, hblock, hmarkers]
    exact (((h.markerInv p).mono hnow).isBlocked _).1
  refine ⟨hblocked, fun hmode c hc hp T hT => ?_⟩
  have hkeeps := keepsBlocks_exec env r hmode c hc
  by_contra hyoung
  have hpath := hblocked.mpr ⟨T, hT, not_lt.mp hyoung⟩
  cases p with
  | direct => exact hkeeps.direct hpath hp
  | codebig => exact hkeeps.codebig hpath hp
  | none => exact absurd hpath (by simp [Context.blocked])

/-- An RRD upload that succeeds through the fallback, and the next one. -/
def fallbackEnv : RunEnv := .working [.failed, .failed, .failed, .success]

def laterEnv : RunEnv := { RunEnv.working [.success] with
  markers := ((Request.run rrdParams).exec fallbackEnv).2.markers
  now := 1000200
  finalizeTime := 1000300 }

/-- The second upload is not attempted on the direct path. -/
theorem laterEnv_blocked : ((Request.run rrdParams).context laterEnv).blocked .direct = true ∧
    ∀ c ∈ ((Request.run rrdParams).exec laterEnv).2.cycles, .direct ∉ c.attempted := by
  have hhistory := History.run (.start 0) fallbackEnv (.run rrdParams) rfl rfl (by decide)
    (by decide)
  have hmem : .direct ∈ ((Request.run rrdParams).exec fallbackEnv).2.created := by decide +kernel
  obtain ⟨hblocked, hattempts⟩ := blocked_iff_created hhistory laterEnv rfl rfl (by decide)
    (.run rrdParams) .direct
  simp only [if_pos hmem] at hblocked hattempts
  refine ⟨hblocked.mpr ⟨_, List.mem_cons_self, by decide⟩, fun c hc hdirect => ?_⟩
  have hexpired := hattempts (Or.inl rfl) c hc hdirect _ List.mem_cons_self
  exact absurd hexpired (by decide)

end DcmAgent.Upload
