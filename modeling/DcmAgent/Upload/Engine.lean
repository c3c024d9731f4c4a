import Mathlib.Tactic.Lemma
import Mathlib.Order.Basic

/-!
# The upload engine

`executeUploadCycle` tries the primary path, and on failure switches the session over to the
fallback path. Each path is run by `retryUpload`, which repeats the attempt while `shouldRetry`
allows it. What one attempt does on the wire is left open: the `n`-th attempt of a cycle is
described by the `n`-th `Outcome`, the result it returns and the codes it stores in the session.
-/

namespace DcmAgent.Upload

inductive UploadPath where
  | direct
  | codebig
  | none
  deriving DecidableEq, Repr

inductive UploadResult where
  | success
  | failed
  | aborted
  | retry
  deriving DecidableEq, Repr

/-- The part of `RuntimeContext` that the engine reads. -/
structure RuntimeContext where
  directMaxAttempts : Int
  codebigMaxAttempts : Int
  deriving DecidableEq, Repr

/-- The part of `SessionState` that the engine reads or writes. -/
structure SessionState where
  primary : UploadPath
  fallback : UploadPath
  directAttempts : Int
  codebigAttempts : Int
  httpCode : Int
  curlCode : Int
  usedFallback : Bool
  success : Bool
  deriving DecidableEq, Repr

/-- One attempt: the result it returns and the codes it stores in the session. -/
structure Outcome where
  result : UploadResult
  httpCode : Int
  curlCode : Int
  deriving DecidableEq, Repr

/-- The session together with the paths attempted so far, in order. -/
structure Cycle where
  session : SessionState
  attempted : List UploadPath
  deriving DecidableEq, Repr

/-! ### Retry logic -/

/-- Only 404 is terminal for the retry logic. -/
def isTerminalFailure (httpCode : Int) : Bool := httpCode == 404

/-- The configured maximum of a path. -/
def RuntimeContext.maxAttempts (ctx : RuntimeContext) : UploadPath → Int
  | .direct => ctx.directMaxAttempts
  | .codebig => ctx.codebigMaxAttempts
  | .none => 0

/-- The attempt counter of a path. -/
def SessionState.attempts (session : SessionState) : UploadPath → Int
  | .direct => session.directAttempts
  | .codebig => session.codebigAttempts
  | .none => 0

def shouldRetry (ctx : RuntimeContext) (session : SessionState) (path : UploadPath)
    (result : UploadResult) : Bool :=
  if result = .success ∨ result = .aborted then false
  -- HTTP 000 is a network failure: it triggers the fallback, not a retry
  else if session.httpCode = 0 then false
  else if isTerminalFailure session.httpCode then false
  else match path with
    | .direct =>
      if session.directAttempts ≥ ctx.directMaxAttempts then false
      else result = .failed ∨ result = .retry
    | .codebig =>
      if session.codebigAttempts ≥ ctx.codebigMaxAttempts then false
      else result = .failed ∨ result = .retry
    | .none => false

def incrementAttempts (session : SessionState) : UploadPath → SessionState
  | .direct => { session with directAttempts := session.directAttempts + 1 }
  | .codebig => { session with codebigAttempts := session.codebigAttempts + 1 }
  | .none => session

/-- One attempt on `path`: the next outcome is consumed and its codes are stored. -/
def singleAttemptUpload (outcomes : ℕ → Outcome) (c : Cycle) :
    UploadPath → UploadResult × Cycle
  | .none => (.failed, c)
  | path =>
    let o := outcomes c.attempted.length
    (o.result,
      { session := { c.session with httpCode := o.httpCode, curlCode := o.curlCode }
        attempted := c.attempted ++ [path] })

/-- `shouldRetry` in terms of the counter and the maximum of the path. -/
lemma shouldRetry_eq_true_iff (ctx : RuntimeContext) (session : SessionState)
    (path : UploadPath) (result : UploadResult) :
    shouldRetry ctx session path result = true ↔
      path ≠ .none ∧ result ≠ .success ∧ result ≠ .aborted ∧ session.httpCode ≠ 0 ∧
        session.httpCode ≠ 404 ∧ session.attempts path < ctx.maxAttempts path := by
  cases path <;> cases result <;>
    simp [shouldRetry, isTerminalFailure, SessionState.attempts, RuntimeContext.maxAttempts]

@[simp] lemma attempts_incrementAttempts (session : SessionState) {path : UploadPath}
    (h : path ≠ .none) :
    (incrementAttempts session path).attempts path = session.attempts path + 1 := by
  cases path <;> simp [incrementAttempts, SessionState.attempts] at h ⊢

lemma singleAttemptUpload_eq (outcomes : ℕ → Outcome) (c : Cycle) {path : UploadPath}
    (h : path ≠ .none) :
    singleAttemptUpload outcomes c path =
      ((outcomes c.attempted.length).result,
        { session := { c.session with
            httpCode := (outcomes c.attempted.length).httpCode
            curlCode := (outcomes c.attempted.length).curlCode }
          attempted := c.attempted ++ [path] }) := by
  cases path <;> simp [singleAttemptUpload] at h ⊢

lemma attempts_singleAttemptUpload (outcomes : ℕ → Outcome) (c : Cycle)
    (path path' : UploadPath) :
    (singleAttemptUpload outcomes c path).2.session.attempts path' = c.session.attempts path' := by
  cases path <;> cases path' <;> rfl

/-- The retry loop of one path. The second test of `shouldRetry`, made after the delay, sees the
same session as the first one. -/
def retryUpload (ctx : RuntimeContext) (outcomes : ℕ → Outcome) (path : UploadPath)
    (c : Cycle) : UploadResult × Cycle :=
  let attempt := singleAttemptUpload outcomes
    { c with session := incrementAttempts c.session path } path
  if attempt.1 = .success then attempt
  else if _hr : shouldRetry ctx attempt.2.session path attempt.1 then
    retryUpload ctx outcomes path attempt.2
  else attempt
termination_by (ctx.maxAttempts path - c.session.attempts path).toNat
decreasing_by
  obtain ⟨hp, -, -, -, -, hlt⟩ := (shouldRetry_eq_true_iff ..).mp _hr
  simp only [attempt, attempts_singleAttemptUpload, attempts_incrementAttempts _ hp] at hlt ⊢
  omega

/-! ### The cycle -/

def attemptUpload (ctx : RuntimeContext) (outcomes : ℕ → Outcome) (c : Cycle)
    (path : UploadPath) : UploadResult × Cycle :=
  retryUpload ctx outcomes path c

def shouldFallback (session : SessionState) (result : UploadResult) : Bool :=
  if result = .success ∨ result = .aborted then false
  else if session.fallback = .none then false
  else if session.usedFallback then false
  else result = .failed ∨ result = .retry

/-- Swap the two paths and mark the fallback as used. -/
def switchToFallback (session : SessionState) : SessionState :=
  { session with
    primary := session.fallback
    fallback := session.primary
    usedFallback := true }

def executeUploadCycle (ctx : RuntimeContext) (outcomes : ℕ → Outcome)
    (session : SessionState) : Bool × Cycle :=
  let (primaryResult, c) := attemptUpload ctx outcomes ⟨session, []⟩ session.primary
  if primaryResult = .success then
    (true, { c with session := { c.session with success := true } })
  else if shouldFallback c.session primaryResult ∧ c.session.fallback ≠ .none then
    let switched := { c with session := switchToFallback c.session }
    -- the field is read after the swap
    let (fallbackResult, c') := attemptUpload ctx outcomes switched switched.session.fallback
    if fallbackResult = .success then
      (true, { c' with session := { c'.session with usedFallback := true, success := true } })
    else (false, { c' with session := { c'.session with success := false } })
  else (false, { c with session := { c.session with success := false } })

end DcmAgent.Upload
