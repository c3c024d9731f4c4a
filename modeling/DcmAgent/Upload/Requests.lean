import Mathlib.Tactic
import DcmAgent.Upload.PathHandler

/-!
# The requests of a run

`retry_upload` repeats an attempt as a whole, so a PUT that fails with a code other than 0 and 404
is followed by another POST, and by another PUT when that succeeds.
-/

namespace DcmAgent.Upload.PathHandler

variable {ctx : PathContext} {transfers : ℕ → Transfers} {t : Transfers} {a : Attempt}

/-- One run of the retry loop; the `n`-th attempt meets the `n`-th transfers. -/
def retryUpload (ctx : PathContext) (transfers : ℕ → Transfers) (path : UploadPath) (n : ℕ)
    (session : SessionState) : Option Attempt :=
  match _ha : singleAttemptUpload ctx (transfers n) (incrementAttempts session path) path with
  | none => none
  | some attempt =>
    if attempt.result = .success then some attempt
    else if _hr : shouldRetry ctx.toRuntimeContext attempt.session path attempt.result then
      (retryUpload ctx transfers path (n + 1) attempt.session).map fun rest =>
        { rest with requests := attempt.requests ++ rest.requests }
    else some attempt
termination_by (ctx.maxAttempts path - session.attempts path).toNat
decreasing_by
  obtain ⟨hp, -, -, -, -, hlt⟩ := (shouldRetry_eq_true_iff ..).mp _hr
  rw [attempts_singleAttemptUpload path _ha] at hlt ⊢
  rw [attempts_incrementAttempts _ hp] at hlt ⊢
  omega

/-! ### What is to hold -/

/-- The requests from the first POST that succeeds on. -/
inductive Closing : List HttpRequest → Prop
  | posted (url : List Char) : Closing [.metadataPost url .success]
  | put (url s3Url : List Char) : Closing [.metadataPost url .success, .s3Put s3Url]
  | proxied (url s3Url proxyUrl : List Char) :
      Closing [.metadataPost url .success, .s3Put s3Url, .proxyPut proxyUrl]

/-- Failing POSTs, and then at most one that succeeds, with its PUTs. -/
def OnlyPostRetried (requests : List HttpRequest) : Prop :=
  ∃ posts closing, requests = posts ++ closing ∧
    (∀ r ∈ posts, ∃ url, r = .metadataPost url .failed) ∧ (closing = [] ∨ Closing closing)

/-! ### The condition -/

/-- A POST that fails, with a code that allows for another one. -/
def PostRetried (t : Transfers) : Prop := ¬PostSucceeds t ∧ ¬Ends t.postHttpCode

/-- Behind a POST that has succeeded an attempt fails, with a code that allows for another one. -/
inductive Repeated (ctx : PathContext) (t : Transfers) : Prop
  | unsigned (hsigned : t.presignedUrl = none)
  | put (hsigned : t.presignedUrl ≠ none) (hput : ¬PutAccepted t)
      (hproxy : (proxyTarget ctx t).join = none) (hcode : ¬Ends (putCode t))
  | proxy (hsigned : t.presignedUrl ≠ none) (hput : ¬PutAccepted t)
      (hproxy : (proxyTarget ctx t).join ≠ none) (hfails : ¬ProxySucceeds t)
      (hcode : ¬Ends t.proxyHttpCode)

/-- The first POST that succeeds in an attempt that is granted: the attempt comes to an end, and it
is the last one that is granted, or not `Repeated`. -/
def PutLast (ctx : PathContext) (transfers : ℕ → Transfers) (n : ℕ) (session : SessionState) :
    Prop :=
  ∀ k, (∀ m < k, PostRetried (transfers (n + m))) → PostSucceeds (transfers (n + k)) →
    (0 < k → session.directAttempts + k < ctx.directMaxAttempts) →
      ¬Overruns ctx (transfers (n + k)) ∧
        (session.directAttempts + k + 1 < ctx.directMaxAttempts →
          ¬Repeated ctx (transfers (n + k)))

/-! ### One attempt -/

lemma repeated_iff (hpost : PostSucceeds t) :
    Repeated ctx t ↔ (directReport ctx t).1 = .failed ∧ ¬Ends (directReport ctx t).2 := by
  have hcode : ¬Ends 200 := by decide
  unfold directReport
  rw [if_neg (not_not_intro hpost)]
  by_cases hsigned : t.presignedUrl = none
  · rw [if_pos hsigned]
    exact iff_of_true (.unsigned hsigned) ⟨rfl, hcode⟩
  rw [if_neg hsigned]
  by_cases hput : PutAccepted t
  · rw [if_pos hput]
    refine iff_of_false ?_ (by simp)
    rintro (hnone | ⟨_, hnot, _, _⟩ | ⟨_, hnot, _, _, _⟩)
    · exact hsigned hnone
    · exact hnot hput
    · exact hnot hput
  rw [if_neg hput]
  by_cases hproxy : (proxyTarget ctx t).join = none
  · rw [if_pos hproxy]
    constructor
    · rintro (hnone | ⟨_, _, _, hends⟩ | ⟨_, _, hsome, _, _⟩)
      · exact absurd hnone hsigned
      · exact ⟨rfl, hends⟩
      · exact absurd hproxy hsome
    · rintro ⟨-, hends⟩
      exact .put hsigned hput hproxy hends
  rw [if_neg hproxy]
  constructor
  · rintro (hnone | ⟨_, _, hnone, _⟩ | ⟨_, _, _, hfails, hends⟩)
    · exact absurd hnone hsigned
    · exact absurd hnone hproxy
    · exact ⟨if_neg hfails, hends⟩
  · rintro ⟨hresult, hends⟩
    refine .proxy hsigned hput hproxy (fun hs => ?_) hends
    rw [if_pos hs] at hresult
    cases hresult

lemma DirectPath.closing {session : SessionState} (h : DirectPath ctx t session (some a))
    (hurl : ctx.postUrl ≠ []) (hpost : PostSucceeds t) : Closing a.requests := by
  cases h with
  | unconfigured hnone => exact absurd hnone hurl
  | refused _ hnot => exact absurd hpost hnot
  | unsigned _ _ _ => exact .posted _
  | accepted _ _ _ _ => exact .put _ _
  | noProxy _ _ _ _ _ => exact .put _ _
  | proxy _ _ _ _ _ => exact .proxied _ _ _

lemma DirectPath.refused_of {session : SessionState} (h : DirectPath ctx t session (some a))
    (hurl : ctx.postUrl ≠ []) (hpost : ¬PostSucceeds t) :
    a.requests = [.metadataPost ctx.postUrl .failed] := by
  cases h with
  | unconfigured hnone => exact absurd hnone hurl
  | refused _ _ => rfl
  | unsigned _ hyes _ => exact absurd hyes hpost
  | accepted _ hyes _ _ => exact absurd hyes hpost
  | noProxy _ hyes _ _ _ => exact absurd hyes hpost
  | proxy _ hyes _ _ _ => exact absurd hyes hpost

/-! ### Lists of requests -/

lemma Closing.onlyPostRetried {l : List HttpRequest} (h : Closing l) : OnlyPostRetried l :=
  ⟨[], l, rfl, by simp, Or.inr h⟩

lemma onlyPostRetried_cons {url : List Char} {l : List HttpRequest} :
    OnlyPostRetried (.metadataPost url .failed :: l) ↔ OnlyPostRetried l := by
  constructor
  · rintro ⟨posts, closing, heq, hposts, hclosing⟩
    cases posts with
    | nil =>
      rw [List.nil_append] at heq
      rcases hclosing with rfl | hclosing
      · cases heq
      · rw [← heq] at hclosing
        cases hclosing
    | cons r posts =>
      rw [List.cons_append] at heq
      exact ⟨posts, closing, (List.cons.inj heq).2,
        fun r hr => hposts r (List.mem_cons_of_mem _ hr), hclosing⟩
  · rintro ⟨posts, closing, rfl, hposts, hclosing⟩
    exact ⟨.metadataPost url .failed :: posts, closing, rfl,
      List.forall_mem_cons.mpr ⟨⟨url, rfl⟩, hposts⟩, hclosing⟩

/-- A POST behind one that has succeeded. -/
lemma not_onlyPostRetried {l l' : List HttpRequest} (h : Closing l) {url : List Char}
    {verdict : UploadResult} : ¬OnlyPostRetried (l ++ .metadataPost url verdict :: l') := by
  rintro ⟨posts, closing, heq, hposts, hclosing⟩
  cases posts with
  | cons r posts =>
    obtain ⟨url', rfl⟩ := hposts r List.mem_cons_self
    cases h <;> cases heq
  | nil =>
    rw [List.nil_append] at heq
    rcases hclosing with rfl | hclosing
    · exact List.append_ne_nil_of_right_ne_nil l (List.cons_ne_nil _ _) heq
    · rw [← heq] at hclosing
      cases h <;> cases hclosing

/-! ### The run -/

/-- The attempt of a round, and whether another one follows. -/
def directAttempt (ctx : PathContext) (t : Transfers) (session : SessionState) : Option Attempt :=
  executeDirectPath ctx t (incrementAttempts session .direct)

/-- Another attempt follows one with this report. -/
def GoesOn (ctx : PathContext) (session : SessionState) (report : UploadResult × ℤ) : Prop :=
  report.1 = .failed ∧ ¬Ends report.2 ∧ session.directAttempts + 1 < ctx.directMaxAttempts

variable {session : SessionState}

lemma directPath_directAttempt (ctx : PathContext) (t : Transfers) (session : SessionState) :
    DirectPath ctx t (incrementAttempts session .direct) (directAttempt ctx t session) :=
  directPath_executeDirectPath ctx t _

lemma directPath_of_eq_some (h : directAttempt ctx t session = some a) :
    DirectPath ctx t (incrementAttempts session .direct) (some a) :=
  h ▸ directPath_directAttempt ctx t session

lemma directAttempts_of_eq_some (h : directAttempt ctx t session = some a) :
    a.session.directAttempts = session.directAttempts + 1 :=
  attempts_singleAttemptUpload .direct h

lemma result_of_eq_some (h : directAttempt ctx t session = some a) :
    a.result = .success ∨ a.result = .failed := by
  cases directPath_of_eq_some h with
  | accepted _ _ _ _ => exact Or.inl rfl
  | proxy _ _ _ _ _ =>
    by_cases hs : ProxySucceeds t
    · exact Or.inl (if_pos hs)
    · exact Or.inr (if_neg hs)
  | unconfigured _ => exact Or.inr rfl
  | refused _ _ => exact Or.inr rfl
  | unsigned _ _ _ => exact Or.inr rfl
  | noProxy _ _ _ _ _ => exact Or.inr rfl

lemma shouldRetry_iff_goesOn (h : directAttempt ctx t session = some a) (hf : a.result = .failed) :
    shouldRetry ctx.toRuntimeContext a.session .direct a.result = true ↔
      GoesOn ctx session (a.result, a.session.httpCode) := by
  rw [hf, shouldRetry_failed (by decide)]
  have hattempts : a.session.attempts .direct = session.directAttempts + 1 :=
    directAttempts_of_eq_some h
  rw [hattempts]
  exact ⟨fun hgo => ⟨rfl, hgo⟩, fun hgo => hgo.2⟩

lemma retryUpload_of_none {n : ℕ} (h : directAttempt ctx (transfers n) session = none) :
    retryUpload ctx transfers .direct n session = none := by
  rw [retryUpload]
  split
  case h_1 => rfl
  case h_2 a ha => exact absurd (h.symm.trans ha) (by simp)

/-- A round in which another attempt follows. -/
lemma retryUpload_of_goesOn {n : ℕ} (h : directAttempt ctx (transfers n) session = some a)
    (hgo : GoesOn ctx session (a.result, a.session.httpCode)) :
    retryUpload ctx transfers .direct n session =
      (retryUpload ctx transfers .direct (n + 1) a.session).map fun rest =>
        { rest with requests := a.requests ++ rest.requests } := by
  have hf : a.result = .failed := hgo.1
  rw [retryUpload]
  split
  case h_1 ha => exact absurd (h.symm.trans ha) (by simp)
  case h_2 a' ha =>
    obtain rfl : a = a' := Option.some.inj (h.symm.trans ha)
    rw [if_neg (by rw [hf]; decide), dif_pos ((shouldRetry_iff_goesOn h hf).mpr hgo)]

/-- A round that is the last one. -/
lemma retryUpload_of_not_goesOn {n : ℕ} (h : directAttempt ctx (transfers n) session = some a)
    (hgo : ¬GoesOn ctx session (a.result, a.session.httpCode)) :
    retryUpload ctx transfers .direct n session = some a := by
  rw [retryUpload]
  split
  case h_1 ha => exact absurd (h.symm.trans ha) (by simp)
  case h_2 a' ha =>
    obtain rfl : a = a' := Option.some.inj (h.symm.trans ha)
    rcases result_of_eq_some h with hs | hf
    · rw [if_pos hs]
    · rw [if_neg (by rw [hf]; decide), dif_neg (mt (shouldRetry_iff_goesOn h hf).mp hgo)]

lemma DirectPath.exists_requests_eq_cons {session : SessionState}
    (h : DirectPath ctx t session (some a)) (hurl : ctx.postUrl ≠ []) :
    ∃ verdict l, a.requests = .metadataPost ctx.postUrl verdict :: l := by
  cases h with
  | unconfigured hnone => exact absurd hnone hurl
  | refused _ _ => exact ⟨_, _, rfl⟩
  | unsigned _ _ _ => exact ⟨_, _, rfl⟩
  | accepted _ _ _ _ => exact ⟨_, _, rfl⟩
  | noProxy _ _ _ _ _ => exact ⟨_, _, rfl⟩
  | proxy _ _ _ _ _ => exact ⟨_, _, rfl⟩

/-- The first request of a run is a POST. -/
lemma exists_requests_eq_cons (hurl : ctx.postUrl ≠ []) {n : ℕ}
    (h : retryUpload ctx transfers .direct n session = some a) :
    ∃ verdict l, a.requests = .metadataPost ctx.postUrl verdict :: l := by
  match hfirst : directAttempt ctx (transfers n) session with
  | none =>
    rw [retryUpload_of_none hfirst] at h
    cases h
  | some first =>
    obtain ⟨verdict, l, hl⟩ := (directPath_of_eq_some hfirst).exists_requests_eq_cons hurl
    by_cases hgo : GoesOn ctx session (first.result, first.session.httpCode)
    · rw [retryUpload_of_goesOn hfirst hgo, Option.map_eq_some_iff] at h
      obtain ⟨rest, -, rfl⟩ := h
      exact ⟨verdict, _, by rw [hl]; rfl⟩
    · rw [retryUpload_of_not_goesOn hfirst hgo, Option.some_inj] at h
      exact ⟨verdict, l, h ▸ hl⟩

/-- Behind a POST that has failed the condition is the one for the rest of the run. -/
lemma putLast_succ {n : ℕ} {session session' : SessionState} (hretried : PostRetried (transfers n))
    (hlt : session.directAttempts + 1 < ctx.directMaxAttempts)
    (hattempts : session'.directAttempts = session.directAttempts + 1) :
    PutLast ctx transfers n session ↔ PutLast ctx transfers (n + 1) session' := by
  have hshift : ∀ m, n + 1 + m = n + (m + 1) := fun m => by omega
  constructor
  · intro h k hbefore hpost hgranted
    rw [hshift] at hpost ⊢
    rw [hattempts] at hgranted ⊢
    have hlast := h (k + 1) (fun m hm => ?_) hpost fun _ => ?_
    · exact ⟨hlast.1, fun hmore => hlast.2 (by push_cast; omega)⟩
    · cases m with
      | zero => exact hretried
      | succ m =>
        rw [← hshift]
        exact hbefore m (by omega)
    · rcases Nat.eq_zero_or_pos k with rfl | hk
      · simpa using hlt
      · have := hgranted hk
        push_cast
        omega
  · intro h k hbefore hpost hgranted
    cases k with
    | zero => exact absurd hpost hretried.1
    | succ k =>
      have hk := hgranted k.succ_pos
      push_cast at hk ⊢
      rw [← hshift] at hpost ⊢
      have hlast := h k (fun m hm => ?_) hpost fun _ => by rw [hattempts]; omega
      · exact ⟨hlast.1, fun hmore => hlast.2 (by rw [hattempts]; omega)⟩
      · rw [hshift]
        exact hbefore (m + 1) (by omega)

/-- When the first POST succeeds the condition is about its attempt. -/
lemma putLast_of_postSucceeds {n : ℕ} {session : SessionState}
    (hpost : PostSucceeds (transfers n)) : PutLast ctx transfers n session ↔
      ¬Overruns ctx (transfers n) ∧ ¬GoesOn ctx session (directReport ctx (transfers n)) := by
  have hgo : GoesOn ctx session (directReport ctx (transfers n)) ↔
      Repeated ctx (transfers n) ∧ session.directAttempts + 1 < ctx.directMaxAttempts := by
    rw [repeated_iff hpost, and_assoc]
    rfl
  rw [hgo]
  constructor
  · intro h
    have hlast := h 0 (by simp) hpost (by simp)
    exact ⟨hlast.1, fun ⟨hrepeated, hlt⟩ => hlast.2 (by simpa using hlt) hrepeated⟩
  · rintro ⟨hinside, h⟩ k hbefore hpost' _
    cases k with
    | zero => exact ⟨hinside, fun hlt hrepeated => h ⟨hrepeated, by simpa using hlt⟩⟩
    | succ k => exact absurd hpost (hbefore 0 (by omega)).1

lemma directReport_of_not_postSucceeds (hpost : ¬PostSucceeds t) :
    directReport ctx t = (.failed, t.postHttpCode) := if_pos hpost

/-- When the first POST fails and ends the run there is no other. -/
lemma putLast_of_not_goesOn {n : ℕ} {session : SessionState} (hpost : ¬PostSucceeds (transfers n))
    (hgo : ¬GoesOn ctx session (directReport ctx (transfers n))) :
    PutLast ctx transfers n session := by
  intro k hbefore hpost' hgranted
  cases k with
  | zero => exact absurd hpost' hpost
  | succ k =>
    rw [directReport_of_not_postSucceeds hpost] at hgo
    have hretried : PostRetried (transfers n) := hbefore 0 (by omega)
    have hlt := hgranted k.succ_pos
    push_cast at hlt
    exact absurd ⟨rfl, hretried.2, by omega⟩ hgo

/-- A run that comes to an end and repeats its POST only. -/
def RetriesPosts (run : Option Attempt) : Prop :=
  ∃ a, run = some a ∧ OnlyPostRetried a.requests

lemma retriesPosts_some : RetriesPosts (some a) ↔ OnlyPostRetried a.requests :=
  ⟨fun ⟨_, ha, h⟩ => Option.some.inj ha ▸ h, fun h => ⟨a, rfl, h⟩⟩

lemma retriesPosts_from (hurl : ctx.postUrl ≠ []) (n : ℕ) (session : SessionState) :
    RetriesPosts (retryUpload ctx transfers .direct n session) ↔
      PutLast ctx transfers n session := by
  -- by induction on the attempts that are left
  induction hleft : (ctx.directMaxAttempts - session.directAttempts).toNat using Nat.strongRecOn
    generalizing n session with
  | _ d ih =>
    match hfirst : directAttempt ctx (transfers n) session with
    | none =>
      have hpost : PostSucceeds (transfers n) := by
        by_contra hnot
        exact executeDirectPath_ne_none (.inr hnot) hfirst
      rw [retryUpload_of_none hfirst, putLast_of_postSucceeds hpost]
      refine iff_of_false (fun ⟨a, ha, _⟩ => by cases ha) fun h => h.1 ?_
      exact (executeDirectPath_eq_none_iff _ _ _ hurl hpost).mp hfirst
    | some a =>
      have hpath := directPath_of_eq_some hfirst
      have hreport := hpath.report hurl
      have hinside : PostSucceeds (transfers n) → ¬Overruns ctx (transfers n) := fun hpost =>
        mt (executeDirectPath_eq_none_iff _ _ _ hurl hpost).mpr
          (show directAttempt ctx (transfers n) session ≠ none by simp [hfirst])
      by_cases hgo : GoesOn ctx session (directReport ctx (transfers n))
      · have hlt := hgo.2.2
        have hattempts := directAttempts_of_eq_some hfirst
        have hrest := ih _ (by rw [hattempts]; omega) (n + 1) a.session rfl
        rw [retryUpload_of_goesOn hfirst (hreport ▸ hgo)]
        by_cases hpost : PostSucceeds (transfers n)
        · -- the POST of the next attempt is one too many
          rw [putLast_of_postSucceeds hpost]
          refine iff_of_false ?_ fun h => h.2 hgo
          rintro ⟨run, hrun, honly⟩
          obtain ⟨rest, hrest, rfl⟩ := Option.map_eq_some_iff.mp hrun
          obtain ⟨verdict, l, hl⟩ := exists_requests_eq_cons hurl hrest
          dsimp only at honly
          rw [hl] at honly
          exact not_onlyPostRetried (hpath.closing hurl hpost) honly
        · rw [directReport_of_not_postSucceeds hpost] at hgo
          rw [putLast_succ ⟨hpost, hgo.2.1⟩ hlt hattempts, ← hrest]
          cases retryUpload ctx transfers .direct (n + 1) a.session with
          | none => exact Iff.rfl
          | some rest =>
            rw [Option.map_some, retriesPosts_some, retriesPosts_some,
              hpath.refused_of hurl hpost, List.singleton_append, onlyPostRetried_cons]
      · rw [retryUpload_of_not_goesOn hfirst (hreport ▸ hgo), retriesPosts_some]
        by_cases hpost : PostSucceeds (transfers n)
        · exact iff_of_true (hpath.closing hurl hpost).onlyPostRetried
            ((putLast_of_postSucceeds hpost).mpr ⟨hinside hpost, hgo⟩)
        · rw [hpath.refused_of hurl hpost]
          exact iff_of_true (onlyPostRetried_cons.mpr ⟨[], [], rfl, by simp, Or.inl rfl⟩)
            (putLast_of_not_goesOn hpost hgo)

/-- Without a URL no request is made. -/
lemma requests_of_unconfigured (transfers : ℕ → Transfers) (hurl : ctx.postUrl = []) (n : ℕ)
    (session : SessionState) :
    ∃ a, retryUpload ctx transfers .direct n session = some a ∧ a.requests = [] := by
  induction hleft : (ctx.directMaxAttempts - session.directAttempts).toNat using Nat.strongRecOn
    generalizing n session with
  | _ d ih =>
    have hfirst : directAttempt ctx (transfers n) session =
        some ⟨.failed, incrementAttempts session .direct, []⟩ := if_pos hurl
    by_cases hgo : GoesOn ctx session (.failed, (incrementAttempts session .direct).httpCode)
    · have hlt := hgo.2.2
      have hattempts := directAttempts_of_eq_some hfirst
      obtain ⟨rest, hrest, hnone⟩ := ih _ (by dsimp only at hattempts; rw [hattempts]; omega)
        (n + 1) (incrementAttempts session .direct) rfl
      rw [retryUpload_of_goesOn hfirst hgo, hrest]
      exact ⟨_, rfl, hnone⟩
    · exact ⟨_, retryUpload_of_not_goesOn hfirst hgo, rfl⟩

/-- **Only the POST is retried** exactly if no attempt whose POST has succeeded is repeated, or
overruns the array of the proxy. -/
theorem onlyPostRetried_iff (ctx : PathContext) (transfers : ℕ → Transfers)
    (session : SessionState) :
    RetriesPosts (retryUpload ctx transfers .direct 0 session) ↔
      ctx.postUrl = [] ∨ PutLast ctx transfers 0 session := by
  by_cases hurl : ctx.postUrl = []
  · obtain ⟨a, ha, hnone⟩ := requests_of_unconfigured transfers hurl 0 session
    rw [ha, retriesPosts_some, hnone]
    exact iff_of_true ⟨[], [], rfl, by simp, Or.inl rfl⟩ (Or.inl hurl)
  · rw [retriesPosts_from hurl, or_iff_right hurl]

/-- The server fails to store the archive, and there is no proxy. -/
def failingPut : Transfers :=
  { refusedPut with putHttpStatus := 500, curlInfo := some "500".toList }

theorem put_repeated :
    ¬RetriesPosts (retryUpload sampleContext (fun _ => failingPut) .direct 0 sampleSession) := by
  rw [retriesPosts_from (by decide)]
  intro hlast
  refine (hlast 0 (by simp) (by decide) (by simp)).2 (by decide) ?_
  exact .put (by decide) (by decide) (by decide) (by decide)

end DcmAgent.Upload.PathHandler
