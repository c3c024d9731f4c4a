import Mathlib.Tactic
import DcmAgent.Upload.PathHandler

/-!
# The verdict of an attempt

An attempt is judged by the codes in the session. What follows is when they are those of the
transfers that the verdict is about, and when codes of an earlier attempt come through.
-/

namespace DcmAgent.Upload.PathHandler

variable {ctx : PathContext} {t : Transfers} {session session' : SessionState} {a : Attempt}

/-! ### Success rests on the PUT -/

/-- The PUT of an attempt is made and completes. -/
def PutCompleted (t : Transfers) (a : Attempt) : Prop :=
  (∃ url, .s3Put url ∈ a.requests) ∧ t.putCurlCode = 0 ∧ t.putHttpStatus = 200

def ProxyCompleted (t : Transfers) (a : Attempt) : Prop :=
  (∃ url, .proxyPut url ∈ a.requests) ∧ t.proxyCurlCode = 0 ∧ t.proxyHttpCode = 200

/-- The attempt comes to an end, and success is only reported for a completed PUT. -/
def VerdictRests (ctx : PathContext) (t : Transfers) (session : SessionState) : Prop :=
  ∃ a, executeDirectPath ctx t session = some a ∧
    (a.result = .success → PutCompleted t a ∨ ProxyCompleted t a)

/-- A PUT is made and refused by the server, and the code that is looked at is 200: the one in the
file, or the one of the POST when there is no file. -/
structure Misread (ctx : PathContext) (t : Transfers) : Prop where
  configured : ctx.postUrl ≠ []
  posted : PostSucceeds t
  signed : t.presignedUrl ≠ none
  transferred : t.putCurlCode = 0
  refused : t.putHttpStatus ≠ 200
  code : ∀ file ∈ t.curlInfo, infoCode file = 200

lemma putCode_eq_iff : putCode t = 200 ↔ ∀ file ∈ t.curlInfo, infoCode file = 200 := by
  unfold putCode
  cases t.curlInfo <;> simp

/-- An accepted PUT has been completed, unless it is misread. -/
lemma putHttpStatus_of_accepted (hurl : ctx.postUrl ≠ []) (hpost : PostSucceeds t)
    {s3Url : List Char} (hsigned : t.presignedUrl = some s3Url) (hput : PutAccepted t)
    (h : ¬Misread ctx t) : t.putHttpStatus = 200 := by
  by_contra hrefused
  refine h ⟨hurl, hpost, ?_, hput.1, hrefused, putCode_eq_iff.mp hput.2⟩
  rw [hsigned]
  exact Option.some_ne_none _

/-- Success rests on a PUT of the attempt exactly if no refused PUT is misread and the fallback does
not write over the end of its array. -/
theorem verdictRests_iff (ctx : PathContext) (t : Transfers) (session : SessionState) :
    VerdictRests ctx t session ↔
      ¬Misread ctx t ∧ (ctx.postUrl ≠ [] → PostSucceeds t → ¬Overruns ctx t) := by
  have hpath := directPath_executeDirectPath ctx t session
  have hnone := executeDirectPath_eq_none_iff ctx t session
  unfold VerdictRests
  generalize executeDirectPath ctx t session = run at hpath hnone
  constructor
  · rintro ⟨a, rfl, hrests⟩
    refine ⟨fun hmisread => ?_, fun hurl hpost => mt (hnone hurl hpost).mpr (by simp)⟩
    -- a misread attempt is an accepted one, which makes no request to the proxy
    have hput : PutAccepted t := ⟨hmisread.transferred, putCode_eq_iff.mpr hmisread.code⟩
    cases hpath with
    | unconfigured hurl => exact hmisread.configured hurl
    | refused _ hpost => exact hpost hmisread.posted
    | unsigned _ _ hsigned => exact hmisread.signed hsigned
    | noProxy _ _ _ hnot _ => exact hnot hput
    | proxy _ _ _ hnot _ => exact hnot hput
    | accepted _ _ _ _ =>
      rcases hrests rfl with hdone | ⟨⟨url, hmem⟩, -⟩
      · exact hmisread.refused hdone.2.2
      · simp at hmem
  · rintro ⟨h, hinside⟩
    cases hpath with
    | unconfigured _ => exact ⟨_, rfl, nofun⟩
    | refused _ _ => exact ⟨_, rfl, nofun⟩
    | unsigned _ _ _ => exact ⟨_, rfl, nofun⟩
    | overrun hurl hpost _ _ _ => exact absurd ((hnone hurl hpost).mp rfl) (hinside hurl hpost)
    | noProxy _ _ _ _ _ => exact ⟨_, rfl, nofun⟩
    | accepted hurl hpost hsigned hput =>
      refine ⟨_, rfl, fun _ => Or.inl
        ⟨⟨_, List.mem_cons_of_mem _ List.mem_cons_self⟩, hput.1, ?_⟩⟩
      exact putHttpStatus_of_accepted hurl hpost hsigned hput h
    | proxy _ _ _ _ _ =>
      refine ⟨_, rfl, fun hresult => ?_⟩
      have hsucceeds : ProxySucceeds t := by
        by_contra hfails
        rw [if_neg hfails] at hresult
        cases hresult
      exact Or.inr
        ⟨⟨_, List.mem_cons_of_mem _ (List.mem_cons_of_mem _ List.mem_cons_self)⟩, hsucceeds⟩

theorem refused_put_succeeds :
    (executeDirectPath sampleContext refusedPut sampleSession).map Attempt.result =
        some .success ∧ ¬VerdictRests sampleContext refusedPut sampleSession := by
  have hresult : (executeDirectPath sampleContext refusedPut sampleSession).map Attempt.result =
      some .success := by decide +kernel
  refine ⟨hresult, ?_⟩
  rintro ⟨a, ha, hrests⟩
  rw [ha] at hresult
  rcases hrests (Option.some.inj hresult) with ⟨-, -, hstatus⟩ | ⟨-, -, hcode⟩
  · exact absurd hstatus (by decide)
  · exact absurd hcode (by decide)

/-! ### Decisions and stale codes -/

/-- The sessions differ at most in the codes and in `success`. -/
def SameButCodes (s s' : SessionState) : Prop :=
  s' = { s with httpCode := s'.httpCode, curlCode := s'.curlCode, success := s'.success }

/-- The result of an attempt and the decision to retry. -/
def decision (ctx : PathContext) (path : UploadPath) (a : Attempt) : UploadResult × Bool :=
  (a.result, shouldRetry ctx.toRuntimeContext a.session path a.result)

/-- An attempt in two sessions ends with the same result and the same decision to retry. -/
def SameDecision (ctx : PathContext) (t : Transfers) (path : UploadPath)
    (s s' : SessionState) : Prop :=
  (singleAttemptUpload ctx t s path).map (decision ctx path) =
    (singleAttemptUpload ctx t s' path).map (decision ctx path)

/-- The attempt comes to a transfer behind which it stores the codes. -/
def Refreshes (ctx : PathContext) (t : Transfers) : UploadPath → Prop
  | .direct => ctx.postUrl ≠ []
  | .codebig => t.codebigPostResult ≠ 0 ∨ t.presignedUrl ≠ none
  | .none => False

/-- Two runs of an attempt both fail to end, or they have the same result, and the same code if `P`
holds. -/
def SameReport (P : Prop) (run run' : Option Attempt) : Prop :=
  run = none ∧ run' = none ∨ ∃ a a', run = some a ∧ run' = some a' ∧ a.result = a'.result ∧
    (P → a.session.httpCode = a'.session.httpCode)

/-- An attempt on the direct path does not look at the codes it finds, and replaces them when there
is a URL. -/
lemma executeDirectPath_report (ctx : PathContext) (t : Transfers) (s s' : SessionState) :
    SameReport (ctx.postUrl ≠ []) (executeDirectPath ctx t s) (executeDirectPath ctx t s') := by
  by_cases hurl : ctx.postUrl = []
  · unfold executeDirectPath
    rw [if_pos hurl, if_pos hurl]
    exact .inr ⟨_, _, rfl, rfl, rfl, fun h => absurd hurl h⟩
  have hiff : executeDirectPath ctx t s = none ↔ executeDirectPath ctx t s' = none := by
    by_cases hpost : PostSucceeds t
    · rw [executeDirectPath_eq_none_iff _ _ _ hurl hpost,
        executeDirectPath_eq_none_iff _ _ _ hurl hpost]
    · exact iff_of_false (executeDirectPath_ne_none (.inr hpost))
        (executeDirectPath_ne_none (.inr hpost))
  have hpath := directPath_executeDirectPath ctx t s
  have hpath' := directPath_executeDirectPath ctx t s'
  generalize executeDirectPath ctx t s = run at hpath hiff
  generalize executeDirectPath ctx t s' = run' at hpath' hiff
  match run, run' with
  | none, none => exact .inl ⟨rfl, rfl⟩
  | none, some a' => simp at hiff
  | some a, none => simp at hiff
  | some a, some a' =>
    have hreport := (hpath.report hurl).trans (hpath'.report hurl).symm
    exact .inr ⟨a, a', rfl, rfl, congrArg Prod.fst hreport, fun _ => congrArg Prod.snd hreport⟩

lemma executeCodebigPath_report (t : Transfers) (s s' : SessionState) :
    (executeCodebigPath t s).result = (executeCodebigPath t s').result ∧
      (t.codebigPostResult ≠ 0 ∨ t.presignedUrl ≠ none →
        (executeCodebigPath t s).session.httpCode =
          (executeCodebigPath t s').session.httpCode) := by
  unfold executeCodebigPath
  by_cases hpost : t.codebigPostResult = 0
  swap
  · rw [if_pos hpost, if_pos hpost]
    exact ⟨rfl, fun _ => rfl⟩
  rw [if_neg (not_not_intro hpost), if_neg (not_not_intro hpost)]
  cases hsigned : t.presignedUrl with
  | none => exact ⟨rfl, fun h => absurd h (by simp [hpost])⟩
  | some s3Url =>
    dsimp only
    by_cases hput : t.codebigPutResult = 0
    · rw [if_neg (not_not_intro hput), if_neg (not_not_intro hput)]
      exact ⟨rfl, fun _ => rfl⟩
    · rw [if_pos hput, if_pos hput]
      exact ⟨rfl, fun _ => rfl⟩

lemma singleAttemptUpload_report (ctx : PathContext) (t : Transfers) (path : UploadPath)
    (s s' : SessionState) : SameReport (Refreshes ctx t path) (singleAttemptUpload ctx t s path)
      (singleAttemptUpload ctx t s' path) := by
  cases path with
  | direct => exact executeDirectPath_report ctx t s s'
  | codebig => exact .inr ⟨_, _, rfl, rfl, executeCodebigPath_report t s s'⟩
  | none => exact .inr ⟨_, _, rfl, rfl, rfl, False.elim⟩

/-- An attempt that comes to no such transfer leaves the codes as they are. -/
lemma singleAttemptUpload_stale {path : UploadPath} (h : ¬Refreshes ctx t path)
    (s : SessionState) : ∃ requests,
      singleAttemptUpload ctx t s path = some ⟨.failed, s, requests⟩ := by
  cases path with
  | none => exact ⟨[], rfl⟩
  | direct =>
    have hurl : ctx.postUrl = [] := not_not.mp h
    exact ⟨[], if_pos hurl⟩
  | codebig =>
    obtain ⟨hpost, hsigned⟩ := not_or.mp h
    refine ⟨[.codebigPost], congrArg some ?_⟩
    rw [executeCodebigPath, if_neg hpost, not_not.mp hsigned]

lemma SameButCodes.attempts (h : SameButCodes session session') (path : UploadPath) :
    session'.attempts path = session.attempts path := by
  rw [h]
  cases path <;> rfl

/-- An attempt ends in the same way whatever codes it finds, exactly if it refreshes them, or they
do not matter for the decision to retry. -/
theorem sameDecision_iff {path : UploadPath} (hp : path ≠ .none)
    (h : SameButCodes session session') :
    SameDecision ctx t path session session' ↔
      Refreshes ctx t path ∨ ctx.maxAttempts path ≤ session.attempts path ∨
        (Ends session.httpCode ↔ Ends session'.httpCode) := by
  by_cases hfresh : Refreshes ctx t path
  · refine iff_of_true ?_ (Or.inl hfresh)
    unfold SameDecision
    rcases singleAttemptUpload_report ctx t path session session' with
      ⟨hnone, hnone'⟩ | ⟨a, a', ha, ha', hresult, hcode⟩
    · rw [hnone, hnone']
    · rw [ha, ha', Option.map_some, Option.map_some, decision, decision, hresult,
        Option.some_inj, Prod.mk.injEq, and_iff_right rfl, Bool.eq_iff_iff]
      rw [shouldRetry_eq_true_iff, shouldRetry_eq_true_iff, hcode hfresh,
        attempts_singleAttemptUpload path ha, attempts_singleAttemptUpload path ha', h.attempts]
  · obtain ⟨requests, ha⟩ := singleAttemptUpload_stale hfresh session
    obtain ⟨requests', ha'⟩ := singleAttemptUpload_stale hfresh session'
    have hdecision : SameDecision ctx t path session session' ↔
        (shouldRetry ctx.toRuntimeContext session path .failed = true ↔
          shouldRetry ctx.toRuntimeContext session' path .failed = true) := by
      unfold SameDecision
      rw [ha, ha', Option.map_some, Option.map_some, decision, decision, Option.some_inj,
        Prod.mk.injEq, and_iff_right rfl, Bool.eq_iff_iff]
    rw [hdecision, shouldRetry_failed hp, shouldRetry_failed hp, h.attempts, or_iff_right hfresh,
      ← not_lt]
    by_cases hlt : session.attempts path < ctx.maxAttempts path
    · rw [and_iff_left hlt, and_iff_left hlt, not_iff_not, or_iff_right (not_not_intro hlt)]
    · exact iff_of_true (iff_of_false (fun h => hlt h.2) (fun h => hlt h.2)) (Or.inl hlt)

/-- The session of an attempt behind one that has left `httpCode`. -/
def staleSession (httpCode : ℤ) : SessionState := { sampleSession with httpCode := httpCode }

lemma sameButCodes_staleSession (httpCode httpCode' : ℤ) :
    SameButCodes (staleSession httpCode) (staleSession httpCode') := rfl

theorem sameDecision_refreshed :
    SameDecision sampleContext refusedPut .direct (staleSession 0) (staleSession 500) :=
  (sameDecision_iff (by decide) (sameButCodes_staleSession 0 500)).mpr
    (Or.inl (by unfold Refreshes; decide))

/-- The answer to the POST of the metadata has no URL for the PUT. -/
def unsignedPost : Transfers := { refusedPut with presignedUrl := none }

/-- What an earlier attempt has left decides whether an attempt is repeated. -/
theorem stale_code_decides : SameButCodes (staleSession 0) (staleSession 500) ∧
    ¬SameDecision sampleContext unsignedPost .codebig (staleSession 0) (staleSession 500) := by
  refine ⟨sameButCodes_staleSession 0 500, ?_⟩
  unfold SameDecision
  decide

end DcmAgent.Upload.PathHandler
