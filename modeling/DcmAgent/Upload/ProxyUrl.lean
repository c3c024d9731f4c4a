import Mathlib.Tactic
import DcmAgent.Upload.PathHandler

/-!
# The URL at the proxy

`attempt_proxy_fallback` puts to the host of the proxy and the path of the S3 URL, unless a path in
front of a query does not fit its array.
-/

namespace DcmAgent.Upload.ProxyUrl

open Library
open PathHandler (PathContext Transfers Attempt https strchr strncpy cleanPath pathPart proxyUrl
  fallbackUrl attemptProxyFallback)

/-! ### What it is for -/

/-- What follows `https://` in the first line of a file. -/
def s3Rest (file : List Char) : Option (List Char) :=
  let url := (file.takeWhile (· ≠ '\n')).takeWhile (· ≠ nul)
  (Cron.strstr https url).map fun pos => url.drop (pos + 8)

/-- The path of a URL behind its scheme: the query aside, from the first slash on. -/
def urlPath (rest : List Char) : List Char := (rest.takeWhile (· ≠ '?')).dropWhile (· ≠ '/')

/-- The attempt has no request, or the one for the host of the proxy and the path of the URL. -/
def PutsPath (ctx : PathContext) (t : Transfers) (session : SessionState)
    (clean : CBuffer 512) : Prop :=
  ∃ clean' attempt, attemptProxyFallback ctx t session clean = some (clean', attempt) ∧
    (attempt.result = .failed ∧ attempt.requests = [] ∨
      ∃ file rest, t.resultsFile = some file ∧ s3Rest file = some rest ∧
        attempt.requests = [.proxyPut (https ++ ctx.proxyBucket ++ urlPath rest)])

/-- The path in front of a query fits its array, where the fallback applies. -/
def CleanFits (ctx : PathContext) (t : Transfers) : Prop :=
  ctx.deviceType = "mediaclient".toList → ctx.proxyBucket ≠ [] →
    ∀ file rest, t.resultsFile = some file → s3Rest file = some rest → '?' ∈ rest →
      (urlPath rest).length < 512

/-! ### Searching -/

lemma takeWhile_ne {c : Char} {a b : List Char} (h : c ∉ a) :
    (a ++ c :: b).takeWhile (· ≠ c) = a := by
  have hall : ∀ x ∈ a, decide (x ≠ c) = true := fun x hx => decide_eq_true fun heq => h (heq ▸ hx)
  rw [List.takeWhile_append_of_pos hall, List.takeWhile_cons_of_neg (by simp), List.append_nil]

lemma dropWhile_ne {c : Char} {a b : List Char} (h : c ∉ a) :
    (a ++ c :: b).dropWhile (· ≠ c) = c :: b := by
  have hall : ∀ x ∈ a, decide (x ≠ c) = true := fun x hx => decide_eq_true fun heq => h (heq ▸ hx)
  rw [List.dropWhile_append_of_pos hall, List.dropWhile_cons_of_neg (by simp)]

lemma strchr_of_notMem {c : Char} {s : List Char} (h : c ∉ s) : strchr c s = none := if_neg h

lemma strchr_split {c : Char} {a b : List Char} (h : c ∉ a) :
    strchr c (a ++ c :: b) = some a.length := by
  rw [strchr, if_pos (by simp), takeWhile_ne h]

lemma takeWhile_of_notMem {c : Char} {s : List Char} (h : c ∉ s) : s.takeWhile (· ≠ c) = s :=
  List.takeWhile_eq_self_iff.mpr fun _ hx => decide_eq_true fun heq => h (heq ▸ hx)

lemma dropWhile_of_notMem {c : Char} {s : List Char} (h : c ∉ s) : s.dropWhile (· ≠ c) = [] :=
  List.dropWhile_eq_nil_iff.mpr fun _ hx => decide_eq_true fun heq => h (heq ▸ hx)

/-! ### The path -/

lemma urlPath_of_notMem {rest : List Char} (h : '/' ∉ rest) : urlPath rest = [] :=
  dropWhile_of_notMem fun hmem => h ((List.takeWhile_prefix _).subset hmem)

/-- Only a path in front of a query goes through the array. -/
lemma pathPart_eq (clean : CBuffer 512) (rest : List Char) :
    pathPart clean rest =
      if '/' ∉ rest ∧ '?' ∉ rest then some (clean, none)
      else if '?' ∈ rest ∧ urlPath rest ≠ [] then
        (cleanPath clean (urlPath rest)).map fun clean => (clean, some clean.str)
      else some (clean, some (urlPath rest)) := by
  by_cases hslash : '/' ∈ rest
  swap
  · rw [urlPath_of_notMem hslash, pathPart, strchr_of_notMem hslash]
    by_cases hquery : '?' ∈ rest
    · simp [strchr, hquery]
    · simp [strchr, hquery, hslash]
  obtain ⟨a, b, rfl, ha⟩ := List.eq_append_cons_of_mem hslash
  rw [if_neg fun h => h.1 hslash, pathPart, strchr_split ha]
  by_cases haq : '?' ∈ a
  · -- the query comes first
    obtain ⟨c, d, rfl, hc⟩ := List.eq_append_cons_of_mem haq
    have hnil : urlPath (c ++ '?' :: d ++ '/' :: b) = [] := by
      rw [urlPath, List.append_assoc, List.cons_append, takeWhile_ne hc]
      exact dropWhile_of_notMem fun h => ha (List.mem_append_left _ h)
    rw [hnil, if_neg (fun h => h.2 rfl), List.append_assoc, List.cons_append, strchr_split hc]
    have hlt : c.length < (c ++ '?' :: d).length := by simp
    exact if_pos hlt
  by_cases hbq : '?' ∈ b
  · obtain ⟨c, d, rfl, hc⟩ := List.eq_append_cons_of_mem hbq
    have hsplit : a ++ '/' :: (c ++ '?' :: d) = (a ++ '/' :: c) ++ '?' :: d := by simp
    have hno : '?' ∉ a ++ '/' :: c := by simp [haq, hc]
    have hpath : urlPath (a ++ '/' :: (c ++ '?' :: d)) = '/' :: c := by
      rw [urlPath, hsplit, takeWhile_ne hno, dropWhile_ne ha]
    have hquery : strchr '?' (a ++ '/' :: (c ++ '?' :: d)) = some (a.length + (c.length + 1)) := by
      rw [hsplit, strchr_split hno, List.length_append, List.length_cons]
    have htake : ('/' :: (c ++ '?' :: d)).take (c.length + 1) = '/' :: c := by simp
    rw [hquery, hpath, if_pos ⟨by simp, by simp⟩]
    dsimp only
    rw [if_neg (by omega), if_pos (by omega), List.drop_left, Nat.add_sub_cancel_left, htake]
  · have hno : '?' ∉ a ++ '/' :: b := by simp [haq, hbq]
    have hpath : urlPath (a ++ '/' :: b) = '/' :: b := by
      rw [urlPath, takeWhile_of_notMem hno, dropWhile_ne ha]
    rw [strchr_of_notMem hno, hpath, if_neg fun h => hno h.1]
    dsimp only
    rw [List.drop_left]

/-- A text fits with the character that ends it, or it is written over the end of the array. -/
lemma cleanPath_of_lt (clean : CBuffer 512) {s : List Char} (hs : nul ∉ s) (hlen : s.length < 512) :
    ∃ clean', cleanPath clean s = some clean' ∧ clean'.str = s := by
  have hchars := clean.length_eq
  obtain ⟨c, tail, htail⟩ : ∃ c tail, clean.chars.drop s.length = c :: tail := by
    refine List.exists_cons_of_length_pos ?_
    rw [List.length_drop]
    omega
  have hcopy : strncpy clean s = some ⟨s ++ c :: tail, by
      rw [← htail, List.length_append, List.length_drop]
      omega⟩ := by
    rw [strncpy, dif_pos hlen.le]
    simp only [htail]
  obtain ⟨clean', hset, hclean'⟩ := CBuffer.set_of_chars
    (b := ⟨s ++ c :: tail, by
      rw [← htail, List.length_append, List.length_drop]
      omega⟩) (n := 512) rfl nul
  refine ⟨clean', ?_, ?_⟩
  · rw [cleanPath, hcopy]
    exact hset
  · rw [CBuffer.str, hclean', takeWhile_ne hs]

lemma cleanPath_of_le (clean : CBuffer 512) {s : List Char} (hlen : 512 ≤ s.length) :
    cleanPath clean s = none := by
  rw [cleanPath, strncpy]
  split_ifs with h
  · rw [Option.bind_some, CBuffer.set, if_neg (by omega)]
  · rfl

lemma urlPath_subset {rest : List Char} : urlPath rest ⊆ rest := fun _ h =>
  (List.takeWhile_prefix _).subset ((List.dropWhile_suffix _).subset h)

/-- The path is found, if there is one, unless it does not fit. -/
lemma pathPart_of_fits (clean : CBuffer 512) {rest : List Char} (hnul : nul ∉ rest)
    (hfits : '?' ∈ rest → (urlPath rest).length < 512) :
    ∃ clean', pathPart clean rest =
      some (clean', if '/' ∉ rest ∧ '?' ∉ rest then none else some (urlPath rest)) := by
  rw [pathPart_eq]
  by_cases hno : '/' ∉ rest ∧ '?' ∉ rest
  · rw [if_pos hno, if_pos hno]
    exact ⟨clean, rfl⟩
  rw [if_neg hno, if_neg hno]
  split_ifs with hquery
  · obtain ⟨clean', hcopy, hstr⟩ := cleanPath_of_lt clean (fun h => hnul (urlPath_subset h))
      (hfits hquery.1)
    rw [hcopy, Option.map_some, hstr]
    exact ⟨clean', rfl⟩
  · exact ⟨clean, rfl⟩

lemma pathPart_of_long (clean : CBuffer 512) {rest : List Char} (hquery : '?' ∈ rest)
    (hlong : 512 ≤ (urlPath rest).length) : pathPart clean rest = none := by
  have hne : urlPath rest ≠ [] := by
    intro h
    rw [h] at hlong
    exact absurd hlong (by decide)
  rw [pathPart_eq, if_neg fun h => h.2 hquery, if_pos ⟨hquery, hne⟩, cleanPath_of_le clean hlong]
  rfl

/-! ### The URL -/

/-- The check of the length leaves nothing for the precisions to cut off. -/
lemma str_url {proxyBucket path : List Char} (hbucket : nul ∉ proxyBucket) (hpath : nul ∉ path)
    (hfits : 8 + proxyBucket.length + path.length + 1 < 1024) :
    https ++ proxyBucket.take (1024 - 9 - path.length - 1) ++
        path.take (1024 - 9 - proxyBucket.length - 1) = https ++ proxyBucket ++ path ∧
      (https ++ proxyBucket ++ path).length < 1024 ∧
      ((CBuffer.fill 1024 nul).snprintf (https ++ proxyBucket ++ path)).str =
        https ++ proxyBucket ++ path := by
  have hlen : (https ++ proxyBucket ++ path).length < 1024 := by
    have hhttps : https.length = 8 := by decide
    rw [List.length_append, List.length_append, hhttps]
    omega
  have hnul : nul ∉ https ++ proxyBucket ++ path := by
    have hhttps : nul ∉ https := by decide
    simp [hhttps, hbucket, hpath]
  refine ⟨?_, hlen, CBuffer.str_snprintf _ hnul hlen⟩
  rw [List.take_of_length_le (by omega), List.take_of_length_le (by omega)]

/-- What `fgets` leaves in the array is the first line. -/
lemma line_of_fgets {file line : List Char} (h : fgets 1024 file = some line)
    (hlen : (file.takeWhile (· ≠ '\n')).length ≤ 1023) :
    (line.takeWhile (· ≠ nul)).takeWhile (· ≠ '\n') =
      (file.takeWhile (· ≠ '\n')).takeWhile (· ≠ nul) := by
  have hcomm : (line.takeWhile (· ≠ nul)).takeWhile (· ≠ '\n') =
      (line.takeWhile (· ≠ '\n')).takeWhile (· ≠ nul) := by
    simp only [List.takeWhile_takeWhile, and_comm]
  have hline : line.takeWhile (· ≠ '\n') = file.takeWhile (· ≠ '\n') := by
    by_cases hmem : '\n' ∈ file
    · obtain ⟨a, b, rfl, ha⟩ := List.eq_append_cons_of_mem hmem
      rw [fgets, if_neg (by simp), takeWhile_ne ha, dropWhile_ne ha, List.take_succ_cons,
        List.take_zero, Option.some.injEq] at h
      rw [takeWhile_ne ha] at hlen ⊢
      rw [← h]
      by_cases hshort : a.length = 1023
      · rw [List.take_append_of_le_length (by omega), List.take_of_length_le hlen,
          takeWhile_of_notMem ha]
      · have hfits : (a ++ ['\n']).length ≤ 1024 - 1 := by
          rw [List.length_append, List.length_singleton]
          omega
        rw [List.take_of_length_le hfits, takeWhile_ne ha]
    · rw [fgets, takeWhile_of_notMem hmem, dropWhile_of_notMem hmem, List.take_nil,
        List.append_nil] at h
      rw [takeWhile_of_notMem hmem] at hlen ⊢
      split_ifs at h
      rw [← Option.some.inj h, List.take_of_length_le hlen, takeWhile_of_notMem hmem]
  rw [hcomm, hline]

/-! ### The attempt -/

/-- The proxy field holds a string. -/
structure FitsField (s : List Char) : Prop where
  nul_notMem : nul ∉ s
  length_lt : s.length < 1024

lemma nul_notMem_s3Rest {file rest : List Char} (h : s3Rest file = some rest) : nul ∉ rest := by
  obtain ⟨pos, -, rfl⟩ := Option.map_eq_some_iff.mp h
  intro hmem
  exact absurd (List.mem_takeWhile_imp (List.mem_of_mem_drop hmem)) (by simp)

/-- The URL for the first line of a file, if there is a path and the URL fits. -/
def urlFor (proxyBucket file : List Char) : Option (List Char) :=
  (s3Rest file).bind fun rest =>
    if '/' ∉ rest ∧ '?' ∉ rest then none
    else if 8 + proxyBucket.length + (urlPath rest).length + 1 ≥ 1024 then none
    else some (https ++ proxyBucket ++ urlPath rest)

lemma urlFor_eq_some {proxyBucket file url : List Char} (h : urlFor proxyBucket file = some url) :
    ∃ rest, s3Rest file = some rest ∧ url = https ++ proxyBucket ++ urlPath rest := by
  obtain ⟨rest, hrest, hurl⟩ := Option.bind_eq_some_iff.mp h
  split_ifs at hurl
  exact ⟨rest, hrest, (Option.some.inj hurl).symm⟩

lemma proxyUrl_of_fits (clean : CBuffer 512) {proxyBucket file line : List Char}
    (hbucket : nul ∉ proxyBucket) (hread : fgets 1024 file = some line)
    (hlen : (file.takeWhile (· ≠ '\n')).length ≤ 1023)
    (hfits : ∀ rest, s3Rest file = some rest → '?' ∈ rest → (urlPath rest).length < 512) :
    ∃ clean', proxyUrl clean proxyBucket line = some (clean', urlFor proxyBucket file) := by
  unfold proxyUrl urlFor
  rw [line_of_fgets hread hlen, s3Rest]
  dsimp only
  match hpos : Cron.strstr https ((file.takeWhile (· ≠ '\n')).takeWhile (· ≠ nul)) with
  | none => exact ⟨clean, rfl⟩
  | some pos =>
    rw [Option.map_some, Option.bind_some]
    dsimp only
    have hrest : s3Rest file =
        some (((file.takeWhile (· ≠ '\n')).takeWhile (· ≠ nul)).drop (pos + 8)) := by
      rw [s3Rest, hpos]
      rfl
    obtain ⟨rest, hdef⟩ : ∃ rest,
      ((file.takeWhile (· ≠ '\n')).takeWhile (· ≠ nul)).drop (pos + 8) = rest := ⟨_, rfl⟩
    rw [hdef] at hrest ⊢
    have hnul := nul_notMem_s3Rest hrest
    obtain ⟨clean', hpart⟩ := pathPart_of_fits clean hnul (hfits _ hrest)
    rw [hpart]
    by_cases hno : '/' ∉ rest ∧ '?' ∉ rest
    · rw [if_pos hno, if_pos hno]
      exact ⟨clean', rfl⟩
    rw [if_neg hno, if_neg hno]
    dsimp only
    by_cases htotal : 8 + proxyBucket.length + (urlPath rest).length + 1 ≥ 1024
    · rw [if_pos htotal, if_pos htotal]
      exact ⟨clean', rfl⟩
    · obtain ⟨hexact, hlt, hstr⟩ := str_url hbucket (fun h => hnul (urlPath_subset h))
        (not_le.mp htotal)
      rw [if_neg htotal, if_neg htotal, hexact, if_neg (not_le.mpr hlt), hstr]
      exact ⟨clean', rfl⟩

lemma proxyUrl_of_long (clean : CBuffer 512) {proxyBucket file line rest : List Char}
    (hread : fgets 1024 file = some line)
    (hlen : (file.takeWhile (· ≠ '\n')).length ≤ 1023) (hrest : s3Rest file = some rest)
    (hquery : '?' ∈ rest) (hlong : 512 ≤ (urlPath rest).length) :
    proxyUrl clean proxyBucket line = none := by
  obtain ⟨pos, hpos, rfl⟩ := Option.map_eq_some_iff.mp hrest
  unfold proxyUrl
  rw [line_of_fgets hread hlen]
  dsimp only
  rw [hpos]
  dsimp only
  rw [pathPart_of_long clean hquery hlong]

/-- A URL in the first line of a file is read. -/
lemma exists_fgets {file rest : List Char} (h : s3Rest file = some rest) :
    ∃ line, fgets 1024 file = some line := by
  have hne : file ≠ [] := by
    rintro rfl
    cases h
  exact ⟨_, if_neg hne⟩

/-- The fallback puts the archive to the path of the URL or to nothing, and writes inside of its
arrays, exactly if a path in front of a query has at most 511 characters. -/
theorem putsPath_iff {ctx : PathContext} {t : Transfers} (hbucket : FitsField ctx.proxyBucket)
    (hline : ∀ file, t.resultsFile = some file → (file.takeWhile (· ≠ '\n')).length ≤ 1023)
    (session : SessionState) (clean : CBuffer 512) :
    PutsPath ctx t session clean ↔ CleanFits ctx t := by
  constructor
  · rintro ⟨clean', attempt, hrun, -⟩ hdevice hproxy file rest hfile hrest hquery
    by_contra hlong
    obtain ⟨line, hread⟩ := exists_fgets hrest
    have happlies : ¬(ctx.deviceType ≠ "mediaclient".toList ∨ ctx.proxyBucket = []) := by
      rw [not_or]
      exact ⟨not_not_intro hdevice, hproxy⟩
    unfold attemptProxyFallback fallbackUrl at hrun
    rw [if_neg happlies, hfile, Option.bind_some, hread] at hrun
    dsimp only at hrun
    rw [proxyUrl_of_long clean hread (hline file hfile) hrest hquery (not_lt.mp hlong)] at hrun
    cases hrun
  · intro hfits
    unfold PutsPath attemptProxyFallback fallbackUrl
    split_ifs with happlies
    · exact ⟨clean, _, rfl, .inl ⟨rfl, rfl⟩⟩
    rw [not_or, not_not] at happlies
    match hfile : t.resultsFile with
    | none => exact ⟨clean, _, rfl, .inl ⟨rfl, rfl⟩⟩
    | some file =>
      match hread : fgets 1024 file with
      | none =>
        rw [Option.bind_some, hread]
        exact ⟨clean, _, rfl, .inl ⟨rfl, rfl⟩⟩
      | some line =>
        rw [Option.bind_some, hread]
        dsimp only
        obtain ⟨clean', hurl⟩ := proxyUrl_of_fits clean hbucket.nul_notMem hread
          (hline file hfile) (fun rest => hfits happlies.1 happlies.2 file rest hfile)
        rw [hurl]
        match hpath : urlFor ctx.proxyBucket file with
        | none => exact ⟨clean', _, rfl, .inl ⟨rfl, rfl⟩⟩
        | some url =>
          obtain ⟨rest, hrest, rfl⟩ := urlFor_eq_some hpath
          dsimp only
          split_ifs
          · exact ⟨clean', _, rfl, .inr ⟨file, rest, rfl, hrest, rfl⟩⟩
          · exact ⟨clean', _, rfl, .inr ⟨file, rest, rfl, hrest, rfl⟩⟩

/-- The results file of a presigned URL. -/
def signedResult : Transfers :=
  { PathHandler.refusedPut with
    resultsFile := some "https://bucket.example/logs.tgz?sig=1\n".toList }

/-- A context with a proxy. -/
def proxyContext : PathContext :=
  { PathHandler.sampleContext with proxyBucket := "proxy.example".toList }

theorem putsPath_signed :
    PutsPath proxyContext signedResult PathHandler.sampleSession (.fill 512 nul) := by
  refine (putsPath_iff ⟨by decide, by decide⟩ ?_ _ _).mpr ?_
  · intro file hfile
    obtain rfl := Option.some.inj hfile
    decide
  · intro _ _ file rest hfile hrest _
    obtain rfl := Option.some.inj hfile
    have hurl : s3Rest "https://bucket.example/logs.tgz?sig=1\n".toList =
        some "bucket.example/logs.tgz?sig=1".toList := by decide
    rw [hurl, Option.some.injEq] at hrest
    rw [← hrest]
    decide

/-- A path of 512 characters in front of a query. -/
def longPath : List Char :=
  "https://bucket.example/".toList ++ (List.replicate 511 'a' ++ "?sig=1\n".toList)

/-- The array for the path is written over its end. -/
theorem longPath_overflows :
    attemptProxyFallback proxyContext
      { PathHandler.refusedPut with resultsFile := some longPath } PathHandler.sampleSession
      (.fill 512 nul) = none ∧
    ¬ PutsPath proxyContext { PathHandler.refusedPut with resultsFile := some longPath }
      PathHandler.sampleSession (.fill 512 nul) := by
  have hrun : attemptProxyFallback proxyContext
      { PathHandler.refusedPut with resultsFile := some longPath } PathHandler.sampleSession
      (.fill 512 nul) = none := by decide +kernel
  refine ⟨hrun, ?_⟩
  rintro ⟨clean', attempt, hsome, -⟩
  rw [hrun] at hsome
  cases hsome

end DcmAgent.Upload.ProxyUrl
