import Mathlib.Tactic
import DcmAgent.Cron.Parse
import DcmAgent.Library.CString
import DcmAgent.Upload.Engine

/-!
# The upload paths

What one attempt does on the wire. The direct path posts the metadata, puts the archive to the
presigned URL it got, and falls back on a proxy; the verdict is read from the codes in the session.
The outcomes of the transfers come from a library and are a parameter of each attempt. The URL at
the proxy has the host of the proxy in place of that of the S3 URL, and no query. A path in front of
a query is copied to an array of its own, whose size is not compared with anything; a copy that does
not fit has no defined behaviour, which is `none`.
-/

namespace DcmAgent.Upload.PathHandler

open Library

/-! ### The surroundings -/

/-- The part of the context that the paths read. -/
structure PathContext extends RuntimeContext where
  endpointUrl : List Char
  uploadHttpLink : List Char
  deviceType : List Char
  proxyBucket : List Char
  deriving DecidableEq, Repr

/-- The outcomes of the transfers of one attempt, as far as they are made. `putHttpStatus` is the
status that the PUT ended with, which the library does not hand back; `curlInfo` is the file that it
may have written, as it is found behind the PUT, `resultsFile` the one with the answer to the POST,
and `cleanPath` what the static array for the path holds when the attempt begins. -/
structure Transfers where
  postHttpCode : ℤ
  postCurlCode : ℤ
  presignedUrl : Option (List Char)
  putCurlCode : ℤ
  putHttpStatus : ℤ
  curlInfo : Option (List Char)
  resultsFile : Option (List Char)
  cleanPath : CBuffer 512
  proxyHttpCode : ℤ
  proxyCurlCode : ℤ
  codebigPostResult : ℤ
  codebigPostHttpCode : ℤ
  codebigPutResult : ℤ
  deriving DecidableEq, Repr

/-- A request that is made; one for metadata comes with its verdict. -/
inductive HttpRequest where
  | metadataPost (url : List Char) (verdict : UploadResult)
  | s3Put (url : List Char)
  | proxyPut (url : List Char)
  | codebigPost
  | codebigPut (url : List Char)
  deriving DecidableEq, Repr

/-- What an attempt, or a run of them, returns and leaves, with the requests it has made. -/
structure Attempt where
  result : UploadResult
  session : SessionState
  requests : List HttpRequest
  deriving DecidableEq, Repr

/-! ### The codes -/

def verifyUpload (session : SessionState) : UploadResult :=
  if session.curlCode ≠ 0 then .failed
  else if session.httpCode = 200 then .success
  else .failed

/-- The cast from `long` to `int`. -/
def asInt (l : ℤ) : ℤ := l.bmod (2 ^ 32)

/-- `fscanf` with `%ld`. -/
def scanLong (file : List Char) : Option ℤ :=
  let (l, rest) := Cron.strtol file
  if rest = file then none else some (max (-2 ^ 63) (min l (2 ^ 63 - 1)))

/-- The code that is taken from the file, -1 without a number. -/
def infoCode (file : List Char) : ℤ := ((scanLong file).map asInt).getD (-1)

/-! ### The proxy -/

def https : List Char := "https://".toList

/-- `strchr`, as the distance of the character. -/
def strchr (c : Char) (s : List Char) : Option ℕ :=
  if c ∈ s then some (s.takeWhile (· ≠ c)).length else none

/-- The array after `strncpy` of exactly the characters of a text. -/
def strncpy {n : ℕ} (b : CBuffer n) (s : List Char) : Option (CBuffer n) :=
  if h : s.length ≤ n then
    some ⟨s ++ b.chars.drop s.length, by
      rw [List.length_append, List.length_drop, b.length_eq, Nat.add_sub_cancel' h]⟩
  else none

/-- `clean_path` with a text and the character that ends it. -/
def cleanPath (clean : CBuffer 512) (s : List Char) : Option (CBuffer 512) :=
  (strncpy clean s).bind fun b => b.set s.length nul

/-- `path_part`, if there is one, with the array behind it. -/
def pathPart (clean : CBuffer 512) (bucketStart : List Char) :
    Option (CBuffer 512 × Option (List Char)) :=
  match strchr '/' bucketStart, strchr '?' bucketStart with
  | none, none => some (clean, none)
  | none, some _ => some (clean, some [])
  | some pathStart, none => some (clean, some (bucketStart.drop pathStart))
  | some pathStart, some queryStart =>
    if queryStart < pathStart then some (clean, some [])
    else if pathStart < queryStart then
      let path := (bucketStart.drop pathStart).take (queryStart - pathStart)
      (cleanPath clean path).map fun clean => (clean, some clean.str)
    else some (clean, some (bucketStart.drop pathStart))

/-- `proxy_url`, if it can be told, for what `fgets` has left in `s3_url`. -/
def proxyUrl (clean : CBuffer 512) (proxyBucket line : List Char) :
    Option (CBuffer 512 × Option (List Char)) :=
  let s3Url := (line.takeWhile (· ≠ nul)).takeWhile (· ≠ '\n')
  match Cron.strstr https s3Url with
  | none => some (clean, none)
  | some pos =>
    match pathPart clean (s3Url.drop (pos + 8)) with
    | none => none
    | some (clean, none) => some (clean, none)
    | some (clean, some path) =>
      if 8 + proxyBucket.length + path.length + 1 ≥ 1024 then some (clean, none)
      else
        let text := https ++ proxyBucket.take (1024 - 9 - path.length - 1) ++
          path.take (1024 - 9 - proxyBucket.length - 1)
        if text.length ≥ 1024 then some (clean, none)
        else some (clean, some ((CBuffer.fill 1024 nul).snprintf text).str)

/-- The static array afterwards, and the URL that the fallback puts to, if it applies. -/
def fallbackUrl (ctx : PathContext) (t : Transfers) (clean : CBuffer 512) :
    Option (CBuffer 512 × Option (List Char)) :=
  if ctx.deviceType ≠ "mediaclient".toList ∨ ctx.proxyBucket = [] then some (clean, none)
  else
    match t.resultsFile.bind (fgets 1024) with
    | none => some (clean, none)
    | some line => proxyUrl clean ctx.proxyBucket line

def afterProxy (t : Transfers) (session : SessionState) : SessionState :=
  { session with curlCode := t.proxyCurlCode, httpCode := t.proxyHttpCode }

/-- The static array afterwards, and the attempt. -/
def attemptProxyFallback (ctx : PathContext) (t : Transfers) (session : SessionState)
    (clean : CBuffer 512) : Option (CBuffer 512 × Attempt) :=
  match fallbackUrl ctx t clean with
  | none => none
  | some (clean, none) => some (clean, ⟨.failed, session, []⟩)
  | some (clean, some url) =>
    let session := afterProxy t session
    if verifyUpload session = .success then
      some (clean, ⟨.success, { session with success := true }, [.proxyPut url]⟩)
    else some (clean, ⟨.failed, session, [.proxyPut url]⟩)

/-! ### The paths -/

def performMetadataPost (t : Transfers) (session : SessionState) : SessionState :=
  { session with httpCode := t.postHttpCode, curlCode := t.postCurlCode }

/-- The session behind the PUT. Without the file the code of the POST stays. -/
def afterPut (t : Transfers) (session : SessionState) : SessionState :=
  { session with
    httpCode := match t.curlInfo with
      | none => session.httpCode
      | some file => infoCode file
    curlCode := t.putCurlCode }

def performS3PutWithFallback (ctx : PathContext) (t : Transfers) (session : SessionState) :
    Option Attempt :=
  match t.presignedUrl with
  | none => some ⟨.failed, session, []⟩
  | some s3Url =>
    let session := afterPut t session
    let s3Verified := verifyUpload session
    if s3Verified = .success then
      some ⟨.success, { session with success := true }, [.s3Put s3Url]⟩
    else
      (attemptProxyFallback ctx t session t.cleanPath).map fun (_, proxy) =>
        if proxy.result = .success then
          ⟨.success, { proxy.session with success := true }, .s3Put s3Url :: proxy.requests⟩
        else
          ⟨s3Verified, { proxy.session with success := false }, .s3Put s3Url :: proxy.requests⟩

/-- The URL for the metadata. -/
def PathContext.postUrl (ctx : PathContext) : List Char :=
  if ctx.endpointUrl ≠ [] then ctx.endpointUrl else ctx.uploadHttpLink

def executeDirectPath (ctx : PathContext) (t : Transfers) (session : SessionState) :
    Option Attempt :=
  if ctx.postUrl = [] then some ⟨.failed, session, []⟩
  else
    let session := performMetadataPost t session
    let postResult := verifyUpload session
    let post := .metadataPost ctx.postUrl postResult
    if postResult ≠ .success then some ⟨postResult, session, [post]⟩
    else
      (performS3PutWithFallback ctx t session).map fun put =>
        { put with requests := post :: put.requests }

def executeCodebigPath (t : Transfers) (session : SessionState) : Attempt :=
  if t.codebigPostResult ≠ 0 then
    ⟨.failed, { session with curlCode := t.codebigPostResult, httpCode := t.codebigPostHttpCode },
      [.codebigPost]⟩
  else
    match t.presignedUrl with
    | none => ⟨.failed, session, [.codebigPost]⟩
    | some s3Url =>
      let session := { session with
        curlCode := t.codebigPutResult
        httpCode := if t.codebigPutResult = 0 then 200 else 0 }
      if t.codebigPutResult ≠ 0 then ⟨.failed, session, [.codebigPost, .codebigPut s3Url]⟩
      else ⟨.success, session, [.codebigPost, .codebigPut s3Url]⟩

def singleAttemptUpload (ctx : PathContext) (t : Transfers) (session : SessionState) :
    UploadPath → Option Attempt
  | .direct => executeDirectPath ctx t session
  | .codebig => some (executeCodebigPath t session)
  | .none => some ⟨.failed, session, []⟩

/-! ### The outcomes of an attempt -/

/-- The POST gets its answer. -/
def PostSucceeds (t : Transfers) : Prop := t.postCurlCode = 0 ∧ t.postHttpCode = 200

/-- The code that the session has behind a PUT: the one of the POST without the file. -/
def putCode (t : Transfers) : ℤ := (t.curlInfo.map infoCode).getD 200

/-- The PUT is taken as complete. -/
def PutAccepted (t : Transfers) : Prop := t.putCurlCode = 0 ∧ putCode t = 200

def ProxySucceeds (t : Transfers) : Prop := t.proxyCurlCode = 0 ∧ t.proxyHttpCode = 200

/-- The URL that an attempt puts to by the proxy, if the fallback applies; `none` when the array for
its path is written over its end. -/
def proxyTarget (ctx : PathContext) (t : Transfers) : Option (Option (List Char)) :=
  (fallbackUrl ctx t t.cleanPath).map Prod.snd

/-- Behind a POST that has succeeded the attempt comes to the fallback, which writes over the end of
its array. -/
def Overruns (ctx : PathContext) (t : Transfers) : Prop :=
  t.presignedUrl ≠ none ∧ ¬PutAccepted t ∧ proxyTarget ctx t = none

instance (t : Transfers) : Decidable (PostSucceeds t) := inferInstanceAs (Decidable (_ ∧ _))
instance (t : Transfers) : Decidable (PutAccepted t) := inferInstanceAs (Decidable (_ ∧ _))
instance (t : Transfers) : Decidable (ProxySucceeds t) := inferInstanceAs (Decidable (_ ∧ _))

instance (ctx : PathContext) (t : Transfers) : Decidable (Overruns ctx t) :=
  inferInstanceAs (Decidable (_ ∧ _))

lemma verifyUpload_eq (session : SessionState) : verifyUpload session =
    if session.curlCode = 0 ∧ session.httpCode = 200 then .success else .failed := by
  unfold verifyUpload
  split_ifs <;> simp_all

lemma verifyUpload_performMetadataPost (t : Transfers) (session : SessionState) :
    verifyUpload (performMetadataPost t session) =
      if PostSucceeds t then .success else .failed :=
  verifyUpload_eq _

/-- The codes of the session behind a POST that has succeeded. -/
lemma httpCode_afterPut {t : Transfers} (h : PostSucceeds t) (session : SessionState) :
    (afterPut t (performMetadataPost t session)).httpCode = putCode t := by
  unfold afterPut putCode
  cases t.curlInfo with
  | none => exact h.2
  | some file => rfl

lemma verifyUpload_afterPut {t : Transfers} (h : PostSucceeds t) (session : SessionState) :
    verifyUpload (afterPut t (performMetadataPost t session)) =
      if PutAccepted t then .success else .failed := by
  rw [verifyUpload_eq, httpCode_afterPut h]
  rfl

lemma verifyUpload_afterProxy (t : Transfers) (session : SessionState) :
    verifyUpload (afterProxy t session) = if ProxySucceeds t then .success else .failed :=
  verifyUpload_eq _

/-- How an attempt on the direct path can go. -/
inductive DirectPath (ctx : PathContext) (t : Transfers) (session : SessionState) :
    Option Attempt → Prop
  | unconfigured (hurl : ctx.postUrl = []) :
      DirectPath ctx t session (some ⟨.failed, session, []⟩)
  | refused (hurl : ctx.postUrl ≠ []) (hpost : ¬PostSucceeds t) :
      DirectPath ctx t session
        (some ⟨.failed, performMetadataPost t session, [.metadataPost ctx.postUrl .failed]⟩)
  | unsigned (hurl : ctx.postUrl ≠ []) (hpost : PostSucceeds t) (hsigned : t.presignedUrl = none) :
      DirectPath ctx t session
        (some ⟨.failed, performMetadataPost t session, [.metadataPost ctx.postUrl .success]⟩)
  | accepted {s3Url : List Char} (hurl : ctx.postUrl ≠ []) (hpost : PostSucceeds t)
      (hsigned : t.presignedUrl = some s3Url) (hput : PutAccepted t) :
      DirectPath ctx t session
        (some ⟨.success, { afterPut t (performMetadataPost t session) with success := true },
          [.metadataPost ctx.postUrl .success, .s3Put s3Url]⟩)
  | overrun {s3Url : List Char} (hurl : ctx.postUrl ≠ []) (hpost : PostSucceeds t)
      (hsigned : t.presignedUrl = some s3Url) (hput : ¬PutAccepted t)
      (hproxy : proxyTarget ctx t = none) : DirectPath ctx t session none
  | noProxy {s3Url : List Char} (hurl : ctx.postUrl ≠ []) (hpost : PostSucceeds t)
      (hsigned : t.presignedUrl = some s3Url) (hput : ¬PutAccepted t)
      (hproxy : proxyTarget ctx t = some none) :
      DirectPath ctx t session
        (some ⟨.failed, { afterPut t (performMetadataPost t session) with success := false },
          [.metadataPost ctx.postUrl .success, .s3Put s3Url]⟩)
  | proxy {s3Url url : List Char} (hurl : ctx.postUrl ≠ []) (hpost : PostSucceeds t)
      (hsigned : t.presignedUrl = some s3Url) (hput : ¬PutAccepted t)
      (hproxy : proxyTarget ctx t = some (some url)) :
      DirectPath ctx t session
        (some ⟨if ProxySucceeds t then .success else .failed,
          { afterProxy t (afterPut t (performMetadataPost t session)) with
            success := decide (ProxySucceeds t) },
          [.metadataPost ctx.postUrl .success, .s3Put s3Url, .proxyPut url]⟩)

/-- The attempt by the proxy, the array aside. -/
lemma map_attemptProxyFallback (ctx : PathContext) (t : Transfers) (session : SessionState) :
    (attemptProxyFallback ctx t session t.cleanPath).map Prod.snd =
      (proxyTarget ctx t).map fun
        | none => ⟨.failed, session, []⟩
        | some url =>
          if ProxySucceeds t then
            ⟨.success, { afterProxy t session with success := true }, [.proxyPut url]⟩
          else ⟨.failed, afterProxy t session, [.proxyPut url]⟩ := by
  unfold attemptProxyFallback proxyTarget
  match fallbackUrl ctx t t.cleanPath with
  | none => rfl
  | some (clean, none) => rfl
  | some (clean, some url) =>
    dsimp only
    rw [verifyUpload_afterProxy]
    by_cases hs : ProxySucceeds t
    · rw [if_pos hs, if_pos rfl]
      exact congrArg some (if_pos hs).symm
    · rw [if_neg hs, if_neg (by decide)]
      exact congrArg some (if_neg hs).symm

theorem directPath_executeDirectPath (ctx : PathContext) (t : Transfers) (session : SessionState) :
    DirectPath ctx t session (executeDirectPath ctx t session) := by
  unfold executeDirectPath
  by_cases hurl : ctx.postUrl = []
  · rw [if_pos hurl]
    exact .unconfigured hurl
  rw [if_neg hurl]
  dsimp only
  rw [verifyUpload_performMetadataPost]
  by_cases hpost : PostSucceeds t
  swap
  · rw [if_neg hpost, if_pos (by decide)]
    exact .refused hurl hpost
  rw [if_pos hpost, if_neg (by decide)]
  unfold performS3PutWithFallback
  cases hsigned : t.presignedUrl with
  | none => exact .unsigned hurl hpost hsigned
  | some s3Url =>
    dsimp only
    rw [verifyUpload_afterPut hpost]
    by_cases hput : PutAccepted t
    · rw [if_pos hput, if_pos rfl]
      exact .accepted hurl hpost hsigned hput
    rw [if_neg hput, if_neg (by decide)]
    have hproxy := map_attemptProxyFallback ctx t (afterPut t (performMetadataPost t session))
    generalize attemptProxyFallback ctx t (afterPut t (performMetadataPost t session)) t.cleanPath =
      proxy at hproxy ⊢
    match htarget : proxyTarget ctx t, proxy with
    | none, none => exact .overrun hurl hpost hsigned hput htarget
    | none, some proxy =>
      rw [htarget] at hproxy
      cases hproxy
    | some target, none =>
      rw [htarget] at hproxy
      cases hproxy
    | some none, some (clean, attempt) =>
      rw [htarget] at hproxy
      obtain rfl : attempt = _ := Option.some.inj hproxy
      exact .noProxy hurl hpost hsigned hput htarget
    | some (some url), some (clean, attempt) =>
      have hrule : DirectPath ctx t session _ :=
        DirectPath.proxy hurl hpost hsigned hput htarget
      rw [htarget] at hproxy
      obtain rfl : attempt = _ := Option.some.inj hproxy
      by_cases hs : ProxySucceeds t
      · rw [if_pos hs, decide_eq_true hs] at hrule
        simpa [hs] using hrule
      · rw [if_neg hs, decide_eq_false hs] at hrule
        simpa [hs] using hrule

/-- The result of an attempt on the direct path and the code that it leaves, when there is a URL. -/
def directReport (ctx : PathContext) (t : Transfers) : UploadResult × ℤ :=
  if ¬PostSucceeds t then (.failed, t.postHttpCode)
  else if t.presignedUrl = none then (.failed, 200)
  else if PutAccepted t then (.success, 200)
  else if (proxyTarget ctx t).join = none then (.failed, putCode t)
  else (if ProxySucceeds t then .success else .failed, t.proxyHttpCode)

lemma DirectPath.report {ctx : PathContext} {t : Transfers} {session : SessionState} {a : Attempt}
    (h : DirectPath ctx t session (some a)) (hurl : ctx.postUrl ≠ []) :
    (a.result, a.session.httpCode) = directReport ctx t := by
  unfold directReport
  cases h with
  | unconfigured hnone => exact absurd hnone hurl
  | refused _ hpost =>
    rw [if_pos hpost]
    rfl
  | unsigned _ hpost hsigned =>
    rw [if_neg (not_not_intro hpost), if_pos hsigned]
    exact congrArg (Prod.mk _) hpost.2
  | accepted _ hpost hsigned hput =>
    rw [if_neg (not_not_intro hpost), if_neg (by simp [hsigned]), if_pos hput, ← hput.2]
    exact congrArg (Prod.mk _) (httpCode_afterPut hpost session)
  | noProxy _ hpost hsigned hput hproxy =>
    rw [if_neg (not_not_intro hpost), if_neg (by simp [hsigned]), if_neg hput,
      if_pos (by rw [hproxy]; rfl)]
    exact congrArg (Prod.mk _) (httpCode_afterPut hpost session)
  | proxy _ hpost hsigned hput hproxy =>
    have hurl : t.presignedUrl ≠ none := by simp [hsigned]
    have hproxies : (proxyTarget ctx t).join ≠ none := by simp [hproxy]
    rw [if_neg (not_not_intro hpost), if_neg hurl, if_neg hput, if_neg hproxies]
    rfl

/-- The attempt has no defined behaviour exactly if it comes to the fallback and that one overruns
its array. -/
lemma executeDirectPath_eq_none_iff (ctx : PathContext) (t : Transfers) (session : SessionState)
    (hurl : ctx.postUrl ≠ []) (hpost : PostSucceeds t) :
    executeDirectPath ctx t session = none ↔ Overruns ctx t := by
  have hpath := directPath_executeDirectPath ctx t session
  generalize executeDirectPath ctx t session = a at hpath
  unfold Overruns
  cases hpath with
  | unconfigured hnone => exact absurd hnone hurl
  | refused _ hnot => exact absurd hpost hnot
  | unsigned _ _ hsigned => simp [hsigned]
  | accepted _ _ _ hput => simp [hput]
  | overrun _ _ hsigned hput hproxy => simp [hsigned, hput, hproxy]
  | noProxy _ _ _ _ hproxy => simp [hproxy]
  | proxy _ _ _ _ hproxy => simp [hproxy]

lemma executeDirectPath_ne_none {ctx : PathContext} {t : Transfers} {session : SessionState}
    (h : ctx.postUrl = [] ∨ ¬PostSucceeds t) : executeDirectPath ctx t session ≠ none := by
  have hpath := directPath_executeDirectPath ctx t session
  generalize executeDirectPath ctx t session = a at hpath
  rintro rfl
  cases hpath with
  | overrun hurl hpost _ _ _ => exact h.elim hurl (fun hnot => hnot hpost)

/-- The counters are left alone. -/
lemma attempts_singleAttemptUpload {ctx : PathContext} {t : Transfers} {s : SessionState}
    (path : UploadPath) {a : Attempt} (h : singleAttemptUpload ctx t s path = some a) :
    a.session.attempts path = s.attempts path := by
  cases path with
  | none =>
    obtain rfl := Option.some.inj h
    rfl
  | direct =>
    have hpath := directPath_executeDirectPath ctx t s
    rw [show executeDirectPath ctx t s = some a from h] at hpath
    cases hpath <;> rfl
  | codebig =>
    obtain rfl := Option.some.inj h
    unfold executeCodebigPath
    split
    · rfl
    · split
      · rfl
      · dsimp only
        split <;> rfl

/-- No retry for this code. -/
def Ends (httpCode : ℤ) : Prop := httpCode = 0 ∨ httpCode = 404

instance (httpCode : ℤ) : Decidable (Ends httpCode) := inferInstanceAs (Decidable (_ ∨ _))

/-- The decision for a failed attempt, by the code and the counter. -/
lemma shouldRetry_failed {path : UploadPath} (hp : path ≠ .none) (ctx : RuntimeContext)
    (s : SessionState) : shouldRetry ctx s path .failed = true ↔
      ¬Ends s.httpCode ∧ s.attempts path < ctx.maxAttempts path := by
  rw [shouldRetry_eq_true_iff]
  unfold Ends
  tauto

/-! ### A sample -/

def sampleContext : PathContext where
  directMaxAttempts := 3
  codebigMaxAttempts := 3
  endpointUrl := "https://logs.example/post".toList
  uploadHttpLink := []
  deviceType := "mediaclient".toList
  proxyBucket := []

/-- The POST succeeds, and the server refuses the PUT without a file being written. -/
def refusedPut : Transfers where
  postHttpCode := 200
  postCurlCode := 0
  presignedUrl := some "https://bucket.example/logs.tgz".toList
  putCurlCode := 0
  putHttpStatus := 403
  curlInfo := none
  resultsFile := some "https://bucket.example/logs.tgz\n".toList
  cleanPath := .fill 512 nul
  proxyHttpCode := 0
  proxyCurlCode := 0
  codebigPostResult := 0
  codebigPostHttpCode := 200
  codebigPutResult := 0

def sampleSession : SessionState where
  primary := .direct
  fallback := .none
  directAttempts := 1
  codebigAttempts := 1
  httpCode := 0
  curlCode := 0
  usedFallback := false
  success := false

end DcmAgent.Upload.PathHandler
