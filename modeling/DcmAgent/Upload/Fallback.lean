import Mathlib.Tactic
import DcmAgent.Upload.Engine

/-!
# The trace of one upload cycle

A run of a path is described by where it stops (`IsRun`), and the law of the cycle
(`FollowsFallbackLaw`) says that the run of the primary path is followed by a run of the original
fallback path exactly when it ended without success and without abort.

The engine passes `session.fallback` to the second run after `switchToFallback` has put the
primary path there, so the law holds only where no second run is due.
-/

namespace DcmAgent.Upload

variable {ctx : RuntimeContext} {outcomes : ℕ → Outcome} {path : UploadPath}

/-- The outcomes after which a path is not tried again. -/
def Outcome.Stops (o : Outcome) : Prop :=
  o.result = .success ∨ o.result = .aborted ∨ o.httpCode = 0 ∨ o.httpCode = 404

instance (o : Outcome) : Decidable o.Stops := by unfold Outcome.Stops; infer_instance

/-- The attempts `start, …, start + k - 1` are one run of a path with the given limit: it ends at
its first stopping outcome, or after `max 1 limit` attempts. -/
structure IsRun (outcomes : ℕ → Outcome) (limit start k : ℕ) : Prop where
  pos : 1 ≤ k
  le : k ≤ max 1 limit
  goesOn : ∀ i, i + 1 < k → ¬(outcomes (start + i)).Stops
  ends : (outcomes (start + (k - 1))).Stops ∨ k = max 1 limit

/-- A run is determined by where it starts. -/
lemma IsRun.unique {limit start k k' : ℕ} (h : IsRun outcomes limit start k)
    (h' : IsRun outcomes limit start k') : k = k' := by
  have key : ∀ {a b : ℕ}, IsRun outcomes limit start a → IsRun outcomes limit start b →
      ¬ a < b := by
    intro a b ha hb hab
    rcases ha.ends with hs | hmax
    · exact hb.goesOn (a - 1) (by have := ha.pos; omega) hs
    · have := hb.le
      omega
  have := key h h'
  have := key h' h
  omega

lemma IsRun.one {limit start : ℕ} (h : (outcomes start).Stops ∨ limit ≤ 1) :
    IsRun outcomes limit start 1 where
  pos := le_rfl
  le := by omega
  goesOn := by omega
  ends := by
    rcases h with h | h
    · exact Or.inl h
    · exact Or.inr (by omega)

lemma IsRun.succ {limit start k : ℕ} (hgo : ¬(outcomes start).Stops) (hlim : 1 < limit)
    (h : IsRun outcomes (limit - 1) (start + 1) k) : IsRun outcomes limit start (k + 1) where
  pos := by omega
  le := by have := h.le; omega
  goesOn := by
    intro i hi
    cases i with
    | zero => exact hgo
    | succ i =>
      have := h.goesOn i (by omega)
      rwa [Nat.add_assoc, Nat.add_comm 1 i] at this
  ends := by
    have hpos := h.pos
    rcases h.ends with hs | hmax
    · left
      rwa [show start + (k + 1 - 1) = start + 1 + (k - 1) by omega]
    · right
      omega

/-- The attempts left to a path. -/
def Cycle.left (ctx : RuntimeContext) (c : Cycle) (path : UploadPath) : ℕ :=
  (ctx.maxAttempts path - c.session.attempts path).toNat

/-- What one run of `retryUpload` does: it appends a run of its own path to the trace, returns the
result of the last attempt and leaves the choice of the paths alone. -/
structure RetrySpec (ctx : RuntimeContext) (outcomes : ℕ → Outcome) (path : UploadPath)
    (c : Cycle) (r : UploadResult × Cycle) (k : ℕ) : Prop where
  isRun : IsRun outcomes (c.left ctx path) c.attempted.length k
  attempted : r.2.attempted = c.attempted ++ List.replicate k path
  result : r.1 = (outcomes (c.attempted.length + (k - 1))).result
  primary : r.2.session.primary = c.session.primary
  fallback : r.2.session.fallback = c.session.fallback
  usedFallback : r.2.session.usedFallback = c.session.usedFallback

/-- The cycle after one more attempt on `path`. -/
def Cycle.afterAttempt (outcomes : ℕ → Outcome) (path : UploadPath) (c : Cycle) : Cycle where
  session := { incrementAttempts c.session path with
    httpCode := (outcomes c.attempted.length).httpCode
    curlCode := (outcomes c.attempted.length).curlCode }
  attempted := c.attempted ++ [path]

@[simp] lemma Cycle.afterAttempt_attempted (c : Cycle) :
    (c.afterAttempt outcomes path).attempted = c.attempted ++ [path] := rfl

@[simp] lemma Cycle.afterAttempt_primary (c : Cycle) :
    (c.afterAttempt outcomes path).session.primary = c.session.primary := by
  cases path <;> rfl

@[simp] lemma Cycle.afterAttempt_fallback (c : Cycle) :
    (c.afterAttempt outcomes path).session.fallback = c.session.fallback := by
  cases path <;> rfl

@[simp] lemma Cycle.afterAttempt_usedFallback (c : Cycle) :
    (c.afterAttempt outcomes path).session.usedFallback = c.session.usedFallback := by
  cases path <;> rfl

lemma Cycle.afterAttempt_attempts (hp : path ≠ .none) (c : Cycle) :
    (c.afterAttempt outcomes path).session.attempts path = c.session.attempts path + 1 := by
  rw [← attempts_incrementAttempts c.session hp]
  cases path <;> rfl

/-- One round of the loop: an attempt, then stop or go on. -/
lemma retryUpload_eq (hp : path ≠ .none) (c : Cycle) :
    retryUpload ctx outcomes path c =
      if ¬(outcomes c.attempted.length).Stops ∧ 1 < c.left ctx path then
        retryUpload ctx outcomes path (c.afterAttempt outcomes path)
      else ((outcomes c.attempted.length).result, c.afterAttempt outcomes path) := by
  have hattempt : singleAttemptUpload outcomes
      { c with session := incrementAttempts c.session path } path =
      ((outcomes c.attempted.length).result, c.afterAttempt outcomes path) :=
    singleAttemptUpload_eq outcomes _ hp
  have hleft : c.session.attempts path + 1 < ctx.maxAttempts path ↔ 1 < c.left ctx path := by
    unfold Cycle.left
    omega
  have hhttp : (c.afterAttempt outcomes path).session.httpCode =
      (outcomes c.attempted.length).httpCode := rfl
  rw [retryUpload, hattempt]
  simp only [shouldRetry_eq_true_iff, Cycle.afterAttempt_attempts hp, hleft, hhttp, dite_eq_ite,
    Outcome.Stops]
  by_cases hs : (outcomes c.attempted.length).result = .success
  · simp [hs]
  · simp [hs, hp, and_assoc]

variable (ctx outcomes) in
theorem retryUpload_spec (hp : path ≠ .none) (c : Cycle) :
    ∃ k, RetrySpec ctx outcomes path c (retryUpload ctx outcomes path c) k := by
  induction hn : c.left ctx path using Nat.strongRecOn generalizing c with
  | _ n ih =>
    rw [retryUpload_eq hp]
    split_ifs with hgo
    · -- the loop goes on: one attempt in front of the remaining run
      obtain ⟨hstop, hlim⟩ := hgo
      have hleft : (c.afterAttempt outcomes path).left ctx path = c.left ctx path - 1 := by
        simp only [Cycle.left, Cycle.afterAttempt_attempts hp]
        omega
      obtain ⟨k, hk⟩ := ih _ (by omega) (c.afterAttempt outcomes path) rfl
      have hlen : (c.afterAttempt outcomes path).attempted.length = c.attempted.length + 1 := by
        simp
      have hpos := hk.isRun.pos
      refine ⟨k + 1, ?_, ?_, ?_, by simpa using hk.primary, by simpa using hk.fallback,
        by simpa using hk.usedFallback⟩
      · refine IsRun.succ hstop hlim ?_
        rw [← hleft, ← hlen]
        exact hk.isRun
      · rw [hk.attempted, Cycle.afterAttempt_attempted, List.append_assoc, List.replicate_succ,
          List.singleton_append]
      · rw [hk.result, hlen]
        congr 2
        omega
    · -- the loop ends: a run of one attempt
      refine ⟨1, IsRun.one ?_, by simp, by simp, by simp, by simp, by simp⟩
      by_cases hs : (outcomes c.attempted.length).Stops
      · exact Or.inl hs
      · right
        have : ¬ 1 < c.left ctx path := fun h => hgo ⟨hs, h⟩
        omega

/-! ### The law of the cycle -/

/-- The session at the start of a cycle. -/
structure Fresh (session : SessionState) : Prop where
  primary : session.primary = .direct ∨ session.primary = .codebig
  fallback : session.fallback ≠ session.primary
  usedFallback : session.usedFallback = false
  directAttempts : session.directAttempts = 0
  codebigAttempts : session.codebigAttempts = 0

/-- The last attempt of a run ended the upload: it succeeded or was aborted. -/
def Outcome.Final (o : Outcome) : Prop := o.result = .success ∨ o.result = .aborted

/-- The number of attempts that the configuration grants to a path. -/
def RuntimeContext.limit (ctx : RuntimeContext) (path : UploadPath) : ℕ :=
  (ctx.maxAttempts path).toNat

/-- The trace of a cycle: a run of the primary path, followed by a run of the fallback path if
and only if the first one ended without success and without abort and there is a fallback; the
cycle reports the result of the last attempt. -/
def FollowsFallbackLaw (ctx : RuntimeContext) (outcomes : ℕ → Outcome)
    (session : SessionState) : Prop :=
  let r := executeUploadCycle ctx outcomes session
  ∃ k, IsRun outcomes (ctx.limit session.primary) 0 k ∧
    ((outcomes (k - 1)).Final ∨ session.fallback = .none →
      r.2.attempted = List.replicate k session.primary) ∧
    (¬((outcomes (k - 1)).Final ∨ session.fallback = .none) →
      ∃ m, IsRun outcomes (ctx.limit session.fallback) k m ∧
        r.2.attempted = List.replicate k session.primary ++ List.replicate m session.fallback) ∧
    (r.1 = true ↔ (outcomes (r.2.attempted.length - 1)).result = .success)

/-- The run of the primary path ends the upload. -/
def PrimaryRunFinal (ctx : RuntimeContext) (outcomes : ℕ → Outcome)
    (session : SessionState) : Prop :=
  ∃ k, IsRun outcomes (ctx.limit session.primary) 0 k ∧ (outcomes (k - 1)).Final

lemma shouldFallback_eq_true_iff (session : SessionState) (result : UploadResult) :
    shouldFallback session result = true ↔
      result ≠ .success ∧ result ≠ .aborted ∧ session.fallback ≠ .none ∧
        session.usedFallback = false := by
  cases result <;> simp [shouldFallback]

lemma Fresh.primary_ne {session : SessionState} (h : Fresh session) : session.primary ≠ .none := by
  rcases h.primary with hp | hp <;> simp [hp]

lemma Fresh.left {session : SessionState} (h : Fresh session) :
    Cycle.left ctx ⟨session, []⟩ session.primary = ctx.limit session.primary := by
  have : session.attempts session.primary = 0 := by
    rcases h.primary with hp | hp <;>
      simp [hp, SessionState.attempts, h.directAttempts, h.codebigAttempts]
  simp [Cycle.left, RuntimeContext.limit, this]

variable (ctx outcomes) in
/-- The verdict and the trace of a cycle, from its one or two runs. -/
lemma executeUploadCycle_eq (session : SessionState) :
    let first := retryUpload ctx outcomes session.primary ⟨session, []⟩
    let second := retryUpload ctx outcomes first.2.session.primary
      { first.2 with session := switchToFallback first.2.session }
    let r := executeUploadCycle ctx outcomes session
    (r.1, r.2.attempted) =
      if first.1 = .success then (true, first.2.attempted)
      else if shouldFallback first.2.session first.1 then
        (decide (second.1 = .success), second.2.attempted)
      else (false, first.2.attempted) := by
  intro first second r
  have hnone : shouldFallback first.2.session first.1 = true →
      first.2.session.fallback ≠ .none :=
    fun h => ((shouldFallback_eq_true_iff ..).mp h).2.2.1
  by_cases hs : first.1 = .success
  · simp [r, executeUploadCycle, attemptUpload, hs, first]
  by_cases hf : shouldFallback first.2.session first.1 = true
  · have := hnone hf
    by_cases h2 : second.1 = .success <;>
      simp_all [r, executeUploadCycle, attemptUpload, first, second, switchToFallback]
  · simp_all [r, executeUploadCycle, attemptUpload, first]

variable (ctx outcomes) in
/-- What the engine does: the second run is one of the primary path again. -/
theorem executeUploadCycle_spec {session : SessionState} (h : Fresh session) :
    let r := executeUploadCycle ctx outcomes session
    ∃ k, IsRun outcomes (ctx.limit session.primary) 0 k ∧
      ((outcomes (k - 1)).Final ∨ session.fallback = .none →
        r.2.attempted = List.replicate k session.primary) ∧
      (¬((outcomes (k - 1)).Final ∨ session.fallback = .none) →
        ∃ m, 1 ≤ m ∧ r.2.attempted = List.replicate (k + m) session.primary) ∧
      (r.1 = true ↔ (outcomes (r.2.attempted.length - 1)).result = .success) := by
  intro r
  obtain ⟨k, hk⟩ := retryUpload_spec ctx outcomes h.primary_ne
    ⟨session, []⟩
  have hr := executeUploadCycle_eq ctx outcomes session
  have hrun := h.left ▸ hk.isRun
  generalize retryUpload ctx outcomes session.primary ⟨session, []⟩ = first at hk hr
  dsimp only at hr
  have hres : first.1 = (outcomes (k - 1)).result := by simpa using hk.result
  have hatt : first.2.attempted = List.replicate k session.primary := by simpa using hk.attempted
  have hdue : shouldFallback first.2.session first.1 = true ↔
      ¬((outcomes (k - 1)).Final ∨ session.fallback = .none) := by
    rw [shouldFallback_eq_true_iff, hk.fallback, hk.usedFallback, h.usedFallback, hres]
    simp only [Outcome.Final]
    tauto
  refine ⟨k, hrun, ?_⟩
  rw [hk.primary, hres] at hr
  rw [hres] at hdue
  by_cases hs : (outcomes (k - 1)).result = .success
  · rw [if_pos hs, Prod.ext_iff] at hr
    have hfinal : (outcomes (k - 1)).Final := Or.inl hs
    obtain ⟨h1, h2⟩ := hr
    exact ⟨fun _ => h2.trans hatt, fun hn => absurd (Or.inl hfinal) hn, by
      change r.1 = _ at h1
      change r.2.attempted = _ at h2
      simp [h1, h2, hatt, hs]⟩
  rw [if_neg hs] at hr
  by_cases hd : (outcomes (k - 1)).Final ∨ session.fallback = .none
  · rw [if_neg (by rw [hdue]; exact not_not_intro hd), Prod.ext_iff] at hr
    obtain ⟨h1, h2⟩ := hr
    exact ⟨fun _ => h2.trans hatt, fun hn => absurd hd hn, by
      change r.1 = _ at h1
      change r.2.attempted = _ at h2
      simp [h1, h2, hatt, hs]⟩
  · -- a second run is due, and it is made on the path that the swap left in the fallback field
    rw [if_pos (hdue.mpr hd), Prod.ext_iff] at hr
    obtain ⟨h1, h2⟩ := hr
    change r.1 = _ at h1
    change r.2.attempted = _ at h2
    obtain ⟨m, hm⟩ := retryUpload_spec ctx outcomes h.primary_ne
      { first.2 with session := switchToFallback first.2.session }
    have hpos := hm.isRun.pos
    have hatt' : r.2.attempted = List.replicate (k + m) session.primary := by
      rw [h2, hm.attempted, hatt, List.replicate_append_replicate]
    refine ⟨fun hf => absurd hf hd, fun _ => ⟨m, hpos, hatt'⟩, ?_⟩
    have hlast : r.2.attempted.length - 1 = first.2.attempted.length + (m - 1) := by
      rw [hatt', hatt, List.length_replicate, List.length_replicate]
      omega
    rw [h1, decide_eq_true_iff, hm.result, hlast]

/-- Where a second run is due the law fails: it asks for the fallback path at a position where
the engine tried the primary one. -/
lemma FollowsFallbackLaw.final {session : SessionState} (h : Fresh session)
    (hlaw : FollowsFallbackLaw ctx outcomes session) :
    session.fallback = .none ∨ PrimaryRunFinal ctx outcomes session := by
  obtain ⟨k, hrun, -, hdue, -⟩ := executeUploadCycle_spec ctx outcomes h
  obtain ⟨k', hrun', -, hsecond, -⟩ := hlaw
  obtain rfl := hrun.unique hrun'
  by_contra hc
  simp only [not_or] at hc
  obtain ⟨hnone, hfin⟩ := hc
  have hnot : ¬((outcomes (k - 1)).Final ∨ session.fallback = .none) := by
    rintro (hf | hf)
    · exact hfin ⟨k, hrun, hf⟩
    · exact hnone hf
  obtain ⟨m, hm, hatt⟩ := hsecond hnot
  obtain ⟨m', hm', hatt'⟩ := hdue hnot
  have hmem : session.fallback ∈ List.replicate (k + m') session.primary := by
    rw [← hatt', hatt]
    exact List.mem_append_right _ (List.mem_replicate.mpr ⟨by have := hm.pos; omega, rfl⟩)
  exact h.fallback (List.eq_of_mem_replicate hmem)

/-- **The fallback trace.** The cycle follows its law exactly when no run of the fallback path is
due: there is no fallback path, or the run of the primary path ends in success or abort. -/
theorem followsFallbackLaw_iff {session : SessionState} (h : Fresh session) :
    FollowsFallbackLaw ctx outcomes session ↔
      session.fallback = .none ∨ PrimaryRunFinal ctx outcomes session := by
  constructor
  · exact FollowsFallbackLaw.final h
  · intro hc
    obtain ⟨k, hrun, hfinal, hdue, hret⟩ := executeUploadCycle_spec ctx outcomes h
    have hnodue : (outcomes (k - 1)).Final ∨ session.fallback = .none := by
      rcases hc with hn | ⟨k', hrun', hf⟩
      · exact Or.inr hn
      · obtain rfl := hrun.unique hrun'
        exact Or.inl hf
    exact ⟨k, hrun, hfinal, fun hn => absurd hnodue hn, hret⟩

/-- A fresh session with the direct path first and the given path to fall back on. -/
def directFirst (fallback : UploadPath) : SessionState where
  primary := .direct
  fallback := fallback
  directAttempts := 0
  codebigAttempts := 0
  httpCode := 0
  curlCode := 0
  usedFallback := false
  success := false

lemma fresh_directFirst {fallback : UploadPath} (h : fallback ≠ .direct) :
    Fresh (directFirst fallback) where
  primary := Or.inl rfl
  fallback := h
  usedFallback := rfl
  directAttempts := rfl
  codebigAttempts := rfl

/-- The first attempt fails, and the later ones succeed. -/
def secondSucceeds (i : ℕ) : Outcome :=
  if i = 0 then ⟨.failed, 500, 22⟩ else ⟨.success, 200, 0⟩

theorem followsFallbackLaw_second :
    FollowsFallbackLaw ⟨3, 1⟩ secondSucceeds (directFirst .codebig) := by
  refine (followsFallbackLaw_iff (fresh_directFirst (by decide))).mpr (Or.inr ⟨2, ?_, ?_⟩)
  · refine .succ ?_ (by decide) (.one (Or.inl ?_))
    · simp [secondSucceeds, Outcome.Stops]
    · simp [secondSucceeds, Outcome.Stops]
  · simp [secondSucceeds, Outcome.Final]

/-- A direct upload that fails once is followed by a second direct upload, never by a CodeBig
one. -/
theorem fallback_path_not_tried :
    Fresh (directFirst .codebig) ∧
      (executeUploadCycle ⟨1, 1⟩ (fun _ => ⟨.failed, 500, 22⟩)
        (directFirst .codebig)).2.attempted = [.direct, .direct] ∧
      ¬FollowsFallbackLaw ⟨1, 1⟩ (fun _ => ⟨.failed, 500, 22⟩) (directFirst .codebig) := by
  refine ⟨fresh_directFirst (by decide), ?_, fun hlaw => ?_⟩
  · simp [executeUploadCycle, attemptUpload, retryUpload, singleAttemptUpload, incrementAttempts,
      shouldRetry, shouldFallback, switchToFallback, isTerminalFailure, directFirst]
  · rcases hlaw.final (fresh_directFirst (by decide)) with hn | ⟨k, -, hf⟩
    · cases hn
    · simp [Outcome.Final] at hf

end DcmAgent.Upload
