import Mathlib.Tactic
import DcmAgent.Backup.Enabled

/-!
# Logs that are overwritten

A directory with a timestamp belongs to one run, since a timestamp does not come again within a
hundred years. `PreviousLogs` itself is used by every run until one has moved `messages.txt` there,
and a later run replaces what an earlier one has moved under the same name.
-/

namespace DcmAgent.Backup.Enabled

open Library

variable {config : BackupConfig} {store : Store} {boot : Boot} {logs : Directory Entry}
  {dest : Directory Content} {sourceDir destDir : List Char} {n : Name} {c c' : Content} {t t' : ℤ}

/-! ### Timestamps -/

lemma digit_injective {a b : ℤ} (ha₀ : 0 ≤ a) (ha : a < 10) (hb₀ : 0 ≤ b) (hb : b < 10)
    (h : digit a = digit b) : a = b := by
  have hall : ∀ i < 10, ∀ j < 10, Nat.digitChar i = Nat.digitChar j → i = j := by decide
  have := hall a.toNat (by omega) b.toNat (by omega) h
  omega

lemma twoDigits_injective {a b : ℤ} (ha₀ : 0 ≤ a) (ha : a < 100) (hb₀ : 0 ≤ b) (hb : b < 100)
    (h : twoDigits a = twoDigits b) : a = b := by
  obtain ⟨htens, hrest⟩ := List.cons.inj h
  have htens := digit_injective (by omega) (by omega) (by omega) (by omega) htens
  have hunits := digit_injective (by omega) (by omega) (by omega) (by omega)
    (List.cons.inj hrest).1
  omega

/-- The hour and the half of the day make up the hour. -/
lemma hour_eq_of_hour12 {h h' : ℤ} (hh₀ : 0 ≤ h) (hh : h < 24) (hh₀' : 0 ≤ h') (hh' : h' < 24)
    (htwelve : hour12 h = hour12 h') (hhalf : h < 12 ↔ h' < 12) : h = h' := by
  unfold hour12 at htwelve
  split_ifs at htwelve <;> omega

/-- Times with one timestamp differ by whole centuries. -/
lemma eq_inYear_of_timestamp (h : timestamp t = timestamp t') :
    ∃ k : ℤ, t' = inYear t ((gmtime t).year + 100 * k) := by
  have happend : ∀ (a b : ℤ) (s s' : List Char), twoDigits a ++ s = twoDigits b ++ s' →
      twoDigits a = twoDigits b ∧ s = s' := fun _ _ _ _ h => List.append_inj h rfl
  obtain ⟨hsec, hmin, hhour, hmday, hmon⟩ := gmtime_bounds t
  obtain ⟨hsec', hmin', hhour', hmday', hmon'⟩ := gmtime_bounds t'
  have htm : timegm (gmtime t') = t' := timegm_gmtime t'
  simp only [inYear]
  simp only [timestamp, List.append_assoc, List.cons_append] at h
  generalize gmtime t = tm at *
  generalize gmtime t' = tm' at *
  obtain ⟨heqmon, h⟩ := happend _ _ _ _ h
  obtain ⟨heqmday, h⟩ := happend _ _ _ _ (List.cons.inj h).2
  obtain ⟨heqyear, h⟩ := happend _ _ _ _ (List.cons.inj h).2
  obtain ⟨heqtwelve, h⟩ := happend _ _ _ _ (List.cons.inj h).2
  obtain ⟨heqmin, h⟩ := happend _ _ _ _ (List.cons.inj h).2
  obtain ⟨heqsec, h⟩ := happend _ _ _ _ (List.cons.inj h).2
  have hmoneq := twoDigits_injective (by omega) (by omega) (by omega) (by omega) heqmon
  have hmdayeq := twoDigits_injective (by omega) (by omega) (by omega) (by omega) heqmday
  have hyeareq := twoDigits_injective (by omega) (by omega) (by omega) (by omega) heqyear
  have hmineq := twoDigits_injective (by omega) (by omega) (by omega) (by omega) heqmin
  have hseceq := twoDigits_injective (by omega) (by omega) (by omega) (by omega) heqsec
  have hbound : ∀ x : ℤ, 0 ≤ hour12 x ∧ hour12 x < 100 := by
    intro x
    unfold hour12
    split_ifs <;> omega
  have htwelve := twoDigits_injective (hbound _).1 (hbound _).2 (hbound _).1 (hbound _).2 heqtwelve
  have hhalf : tm.hour < 12 ↔ tm'.hour < 12 := by
    have hhead := (List.cons.inj h).1
    by_cases h₁ : tm.hour < 12 <;> by_cases h₂ : tm'.hour < 12 <;> simp [h₁, h₂] at hhead ⊢
  have hhoureq := hour_eq_of_hour12 hhour.1 hhour.2 hhour'.1 hhour'.2 htwelve hhalf
  refine ⟨(tm'.year - tm.year) / 100, ?_⟩
  have hyear : tm.year + 100 * ((tm'.year - tm.year) / 100) = tm'.year := by omega
  have hmonth : tm.mon = tm'.mon := by omega
  rw [hyear, ← htm]
  simp only [timegm, hmonth, hmdayeq, hhoureq, hmineq, hseceq]

/-- The time a hundred years later. -/
def centuryLater (t : ℤ) : ℤ := inYear t ((gmtime t).year + 100)

theorem timestamp_ne (hlt : t < t') (hcentury : t' < centuryLater t) :
    timestamp t ≠ timestamp t' := by
  intro h
  obtain ⟨k, rfl⟩ := eq_inYear_of_timestamp h
  rcases le_or_gt k 0 with hk | hk
  · have hle := inYear_mono t (show (gmtime t).year + 100 * k ≤ (gmtime t).year by omega)
    rw [inYear_self] at hle
    exact hle.not_gt hlt
  · have hle := inYear_mono t (show (gmtime t).year + 100 ≤ (gmtime t).year + 100 * k by omega)
    exact hle.not_gt hcentury

/-! ### Moving the logs -/

/-- The log is moved to the directory. -/
def Takes (sourceDir destDir : List Char) (logs : Directory Entry) (n : Name) (c : Content) :
    Prop :=
  Movable sourceDir destDir n ∧ logs.lookup n = some (.file c)

lemma moveEntry_of_takes (h : Takes sourceDir destDir logs n c) :
    moveEntry sourceDir destDir (logs, dest) n = (logs.remove n, dest.put n c) := by
  rw [moveEntry, h.2]
  exact if_pos h.1

lemma moveEntry_of_not_takes (h : ∀ c, ¬Takes sourceDir destDir logs n c) :
    moveEntry sourceDir destDir (logs, dest) n = (logs, dest) := by
  unfold moveEntry
  split
  · rename_i c hc
    exact if_neg fun hmovable => h c ⟨hmovable, hc⟩
  · rfl

/-- A name that is not moved is left alone in both directories. -/
lemma lookup_moveEntries_of_not_takes (names : List Name)
    (h : ∀ c, ¬Takes sourceDir destDir logs n c) :
    (names.foldl (moveEntry sourceDir destDir) (logs, dest)).1.lookup n = logs.lookup n ∧
      (names.foldl (moveEntry sourceDir destDir) (logs, dest)).2.lookup n = dest.lookup n := by
  induction names generalizing logs dest with
  | nil => exact ⟨rfl, rfl⟩
  | cons m names ih =>
    rw [List.foldl_cons]
    by_cases htakes : ∃ c, Takes sourceDir destDir logs m c
    · obtain ⟨c, htakes⟩ := htakes
      have hne : n ≠ m := fun heq => h c (heq ▸ htakes)
      have hlogs : (logs.remove m).lookup n = logs.lookup n := by
        rw [Directory.lookup_remove, if_neg hne]
      have hdest : (dest.put m c).lookup n = dest.lookup n := by
        rw [Directory.lookup_put, if_neg hne]
      rw [moveEntry_of_takes htakes, ← hlogs, ← hdest]
      exact ih fun c' htakes' => h c' ⟨htakes'.1, hlogs ▸ htakes'.2⟩
    · rw [moveEntry_of_not_takes (not_exists.mp htakes)]
      exact ih h

lemma lookup_moveEntries_of_takes {names : List Name} (hmem : n ∈ names)
    (h : Takes sourceDir destDir logs n c) :
    (names.foldl (moveEntry sourceDir destDir) (logs, dest)).1.lookup n = none ∧
      (names.foldl (moveEntry sourceDir destDir) (logs, dest)).2.lookup n = some c := by
  induction names generalizing logs dest with
  | nil => cases hmem
  | cons m names ih =>
    rw [List.foldl_cons]
    by_cases heq : n = m
    · subst heq
      have hlogs : (logs.remove n).lookup n = none := by
        rw [Directory.lookup_remove, if_pos rfl]
      have hdest : (dest.put n c).lookup n = some c := by
        rw [Directory.lookup_put, if_pos rfl]
      rw [moveEntry_of_takes h, ← hlogs, ← hdest]
      refine lookup_moveEntries_of_not_takes names fun c' htakes => ?_
      exact absurd (hlogs.symm.trans htakes.2) (by simp)
    · have hmem := (List.mem_cons.mp hmem).resolve_left heq
      by_cases htakes : ∃ c, Takes sourceDir destDir logs m c
      · obtain ⟨c', htakes⟩ := htakes
        rw [moveEntry_of_takes htakes]
        refine ih hmem ⟨h.1, ?_⟩
        rw [Directory.lookup_remove, if_neg heq]
        exact h.2
      · rw [moveEntry_of_not_takes (not_exists.mp htakes)]
        exact ih hmem h

/-- What is moved is the last that the destination has under the name. -/
lemma lookup_moveLogFilesByPattern :
    (∀ c, Takes sourceDir destDir logs n c →
        (moveLogFilesByPattern sourceDir destDir logs dest).1.lookup n = none ∧
          (moveLogFilesByPattern sourceDir destDir logs dest).2.lookup n = some c) ∧
      ((∀ c, ¬Takes sourceDir destDir logs n c) →
        (moveLogFilesByPattern sourceDir destDir logs dest).1.lookup n = logs.lookup n ∧
          (moveLogFilesByPattern sourceDir destDir logs dest).2.lookup n = dest.lookup n) := by
  constructor
  · intro c h
    have hmem : n ∈ logs.names := by
      by_contra hno
      exact absurd (Directory.lookup_eq_none_iff.mpr hno ▸ h.2) (by simp)
    exact lookup_moveEntries_of_takes hmem h
  · exact lookup_moveEntries_of_not_takes logs.names

lemma lookup_touch (hne : n ≠ lastReboot) : (touch dest lastReboot).lookup n = dest.lookup n := by
  unfold touch
  split_ifs
  · rfl
  · rw [Directory.lookup_put, if_neg hne]

lemma ne_lastReboot_of_isLog (h : IsLog n) : n ≠ lastReboot := by
  rintro rfl
  exact absurd h (by decide +kernel)

lemma isLog_sysLog : IsLog sysLog := by decide +kernel

/-! ### One run -/

/-- A file of `PreviousLogs`, or of a directory of it. -/
def Store.lookup (store : Store) (place : Option Name) (n : Name) : Option Content :=
  match place with
  | none => List.lookup n store.files
  | some d => (store.dirs d).bind (List.lookup n)

/-- Where a run puts the logs. -/
def placeOf (store : Store) (boot : Boot) : Option Name :=
  if sysLog ∉ store.files.names then none else some (directoryName boot.time)

def pathOf (config : BackupConfig) : Option Name → List Char
  | none => config.prevLogPath
  | some d => config.prevLogPath ++ '/' :: d

/-- The run moves the log to the place. -/
structure Moves (config : BackupConfig) (store : Store) (boot : Boot) (place : Option Name)
    (n : Name) (c : Content) : Prop where
  place_eq : placeOf store boot = place
  fits : config.prevLogPath.length + 1 + sysLog.length < pathMax
  takes : Takes config.logPath (pathOf config place) boot.logs n c

variable {place : Option Name}

/-- The store after a run. -/
abbrev after (config : BackupConfig) (boot : Boot) (store : Store) : Store :=
  (backupExecuteHddEnabledStrategy config boot store).2.2

variable (boot) in
lemma lookup_after_of_first (hfits : config.prevLogPath.length + 1 + sysLog.length < pathMax)
    (hfirst : sysLog ∉ store.files.names) :
    (after config boot store).dirs = store.dirs ∧
      ∀ n, n ≠ lastReboot → (after config boot store).lookup none n =
        (moveLogFilesByPattern config.logPath config.prevLogPath boot.logs store.files).2.lookup
          n := by
  rw [after, backupExecuteHddEnabledStrategy, if_neg (not_le.mpr hfits), if_pos hfirst]
  dsimp only
  split_ifs
  · exact ⟨rfl, fun _ _ => rfl⟩
  · exact ⟨rfl, fun n hne => lookup_touch hne⟩

variable (boot) in
/-- The directory of the run, if its path fits. -/
lemma lookup_after_of_later (hfits : config.prevLogPath.length + 1 + sysLog.length < pathMax)
    (hlater : sysLog ∈ store.files.names) :
    (∀ n, n ≠ lastReboot → (after config boot store).lookup none n = store.lookup none n) ∧
      (∀ d, d ≠ directoryName boot.time → (after config boot store).dirs d = store.dirs d) ∧
      ∀ n, n ≠ lastReboot → (after config boot store).lookup (some (directoryName boot.time)) n =
        if (pathOf config (some (directoryName boot.time))).length < pathMax then
          (moveLogFilesByPattern config.logPath (pathOf config (some (directoryName boot.time)))
            boot.logs ((store.dirs (directoryName boot.time)).getD [])).2.lookup n
        else store.lookup (some (directoryName boot.time)) n := by
  have hfiles : ∀ n, n ≠ lastReboot → (store.files.remove lastReboot).lookup n =
      store.files.lookup n := fun n hne => by
    rw [Directory.lookup_remove, if_neg hne]
  rw [after, backupExecuteHddEnabledStrategy, if_neg (not_le.mpr hfits),
    if_neg (not_not.mpr hlater)]
  have hmarker : ¬pathMax ≤ config.prevLogPath.length + 1 + lastReboot.length := by
    have : lastReboot.length < sysLog.length := by decide +kernel
    omega
  have hpath : config.prevLogPath ++ '/' :: directoryName boot.time =
      pathOf config (some (directoryName boot.time)) := rfl
  rw [if_neg hmarker]
  dsimp only
  rw [hpath]
  by_cases hlong : pathMax ≤ (pathOf config (some (directoryName boot.time))).length
  · rw [if_pos hlong]
    refine ⟨hfiles, fun _ _ => rfl, fun n _ => ?_⟩
    rw [if_neg hlong.not_gt]
    rfl
  · simp only [if_neg hlong, if_pos (not_le.mp hlong)]
    split_ifs with hmark
    · refine ⟨hfiles, fun d hd => Function.update_of_ne hd _ _, fun n _ => ?_⟩
      simp [Store.lookup]
    · refine ⟨hfiles, fun d hd => Function.update_of_ne hd _ _, fun n hne => ?_⟩
      simp [Store.lookup, lookup_touch hne]

/-- A log that is moved is there. -/
lemma lookup_after_of_moves (h : Moves config store boot place n c) :
    (after config boot store).lookup place n = some c := by
  obtain ⟨rfl, hfits, htakes⟩ := h
  have hne := ne_lastReboot_of_isLog htakes.1.1
  by_cases hfirst : sysLog ∉ store.files.names
  · rw [placeOf, if_pos hfirst] at htakes ⊢
    rw [(lookup_after_of_first boot hfits hfirst).2 n hne]
    exact (lookup_moveLogFilesByPattern.1 c htakes).2
  · rw [placeOf, if_neg hfirst] at htakes ⊢
    have hshort : (pathOf config (some (directoryName boot.time))).length < pathMax := by
      have hdest := htakes.1.2.2
      rw [List.length_append] at hdest
      omega
    rw [(lookup_after_of_later boot hfits (not_not.mp hfirst)).2.2 n hne, if_pos hshort]
    exact (lookup_moveLogFilesByPattern.1 c htakes).2

/-- A log that is not replaced stays. -/
lemma lookup_after_of_not_moves (hlog : IsLog n) (h : ∀ c, ¬Moves config store boot place n c) :
    (after config boot store).lookup place n = store.lookup place n := by
  have hne := ne_lastReboot_of_isLog hlog
  by_cases hfits : config.prevLogPath.length + 1 + sysLog.length < pathMax
  swap
  · rw [after, backupExecuteHddEnabledStrategy, if_pos (not_lt.mp hfits)]
  have hnot (hplace : placeOf store boot = place) (c : Content) :
      ¬Takes config.logPath (pathOf config place) boot.logs n c :=
    fun htakes => h c ⟨hplace, hfits, htakes⟩
  by_cases hfirst : sysLog ∉ store.files.names
  · obtain ⟨hdirs, hfiles⟩ := lookup_after_of_first boot hfits hfirst
    cases place with
    | none =>
      rw [hfiles n hne]
      exact (lookup_moveLogFilesByPattern.2 (hnot (if_pos hfirst))).2
    | some d => rw [Store.lookup, hdirs, Store.lookup]
  · obtain ⟨hfiles, hdirs, hown⟩ := lookup_after_of_later boot hfits (not_not.mp hfirst)
    cases place with
    | none => exact hfiles n hne
    | some d =>
      by_cases hd : d = directoryName boot.time
      · subst hd
        rw [hown n hne]
        split_ifs with hshort
        · rw [(lookup_moveLogFilesByPattern.2 (hnot (if_neg hfirst))).2, Store.lookup]
          cases store.dirs (directoryName boot.time) <;> rfl
        · rfl
      · rw [Store.lookup, hdirs d hd, Store.lookup]

/-! ### Many runs -/

/-- A log that a run has moved is still there after each later run. -/
def KeepsMoved (config : BackupConfig) (store : Store) (boots : List Boot) : Prop :=
  ∀ earlier b later rest, boots = earlier ++ b :: (later ++ rest) → ∀ place n c,
    Moves config (run config store earlier) b place n c →
      (run config store (earlier ++ b :: later)).lookup place n = some c

/-- The clock goes forward, and by less than a hundred years. -/
def Clock (boots : List Boot) : Prop :=
  boots.Pairwise fun b b' => b.time < b'.time ∧ b'.time < centuryLater b.time

/-- `messages.txt` has not been there from the start, and no run has moved it there. -/
def Unmarked (config : BackupConfig) (store : Store) (boots : List Boot) : Prop :=
  sysLog ∉ store.files.names ∧
    ∀ b ∈ boots, ∀ c, ¬Takes config.logPath config.prevLogPath b.logs sysLog c

/-- Until `messages.txt` is there, a log that comes again has the same content. -/
def SameAgain (config : BackupConfig) (store : Store) (boots : List Boot) : Prop :=
  ∀ earlier b later b' rest, boots = earlier ++ b :: (later ++ b' :: rest) →
    Unmarked config store (earlier ++ b :: later) → ∀ n c c',
      Takes config.logPath config.prevLogPath b.logs n c →
      Takes config.logPath config.prevLogPath b'.logs n c' → c = c'

variable {boots later : List Boot}

lemma run_concat (config : BackupConfig) (store : Store) (boots : List Boot) (b : Boot) :
    run config store (boots ++ [b]) = after config b (run config store boots) := by
  rw [run, List.foldl_append]
  rfl

lemma sysLog_notMem_iff : sysLog ∉ store.files.names ↔ store.lookup none sysLog = none :=
  Directory.lookup_eq_none_iff.symm

/-- The runs that put the logs into `PreviousLogs` itself. -/
lemma sysLog_notMem_run_iff (hfits : config.prevLogPath.length + 1 + sysLog.length < pathMax) :
    sysLog ∉ (run config store boots).files.names ↔ Unmarked config store boots := by
  induction boots using List.reverseRecOn with
  | nil => simp [run, Unmarked]
  | append_singleton boots b ih =>
    have hconcat : Unmarked config store (boots ++ [b]) ↔ Unmarked config store boots ∧
        ∀ c, ¬Takes config.logPath config.prevLogPath b.logs sysLog c := by
      simp [Unmarked, or_imp, forall_and, and_assoc]
    rw [hconcat, ← ih, run_concat]
    generalize run config store boots = store
    by_cases hfirst : sysLog ∉ store.files.names
    · rw [and_iff_right hfirst]
      constructor
      · intro hno c htakes
        have hmoves : Moves config store b none sysLog c := ⟨if_pos hfirst, hfits, htakes⟩
        rw [sysLog_notMem_iff, lookup_after_of_moves hmoves] at hno
        cases hno
      · intro hnot
        rw [sysLog_notMem_iff, lookup_after_of_not_moves isLog_sysLog fun c h => hnot c h.takes]
        exact sysLog_notMem_iff.mp hfirst
    · have hnot : ∀ c, ¬Moves config store b none sysLog c := fun c h => by
        have hplace := h.place_eq
        rw [placeOf, if_neg hfirst] at hplace
        cases hplace
      rw [sysLog_notMem_iff, lookup_after_of_not_moves isLog_sysLog hnot, ← sysLog_notMem_iff]
      simp [not_not.mp hfirst]

lemma place_of_moves_none (h : Moves config store boot none n c) : sysLog ∉ store.files.names := by
  intro hmem
  have hplace := h.place_eq
  rw [placeOf, if_neg (not_not.mpr hmem)] at hplace
  cases hplace

lemma place_of_moves_some {d : Name} (h : Moves config store boot (some d) n c) :
    d = directoryName boot.time := by
  have hplace := h.place_eq
  unfold placeOf at hplace
  split_ifs at hplace
  exact (Option.some.inj hplace).symm

lemma clock_of_append {earlier rest : List Boot} {b b' : Boot}
    (h : Clock (earlier ++ b :: (later ++ b' :: rest))) :
    b.time < b'.time ∧ b'.time < centuryLater b.time := by
  have htail := (List.pairwise_append.mp h).2.1
  exact (List.pairwise_cons.mp htail).1 b' (by simp)

/-- Each later run leaves the log alone, by induction on the later runs. -/
lemma lookup_run_of_moves (hclock : Clock boots) (hsame : SameAgain config store boots)
    {earlier rest : List Boot} {b : Boot} (heq : boots = earlier ++ b :: (later ++ rest))
    (h : Moves config (run config store earlier) b place n c) :
    (run config store (earlier ++ b :: later)).lookup place n = some c := by
  induction later using List.reverseRecOn generalizing rest with
  | nil =>
    rw [run_concat]
    exact lookup_after_of_moves h
  | append_singleton later b' ih =>
    have hboots : boots = earlier ++ b :: (later ++ b' :: rest) := by simpa using heq
    have happend : earlier ++ b :: (later ++ [b']) = (earlier ++ b :: later) ++ [b'] := by simp
    have hbefore := ih hboots
    rw [happend, run_concat]
    by_cases hmoves : ∃ c', Moves config (run config store (earlier ++ b :: later)) b' place n c'
    swap
    · rw [lookup_after_of_not_moves h.takes.1.1 (not_exists.mp hmoves)]
      exact hbefore
    obtain ⟨c', hmoves⟩ := hmoves
    rw [lookup_after_of_moves hmoves]
    cases place with
    | none =>
      have hfirst := (sysLog_notMem_run_iff h.fits).mp (place_of_moves_none hmoves)
      rw [hsame earlier b later b' rest hboots hfirst n c c' h.takes hmoves.takes]
    | some d =>
      -- the directory would have the timestamps of both runs
      have hnames : directoryName b.time = directoryName b'.time :=
        (place_of_moves_some h).symm.trans (place_of_moves_some hmoves)
      obtain ⟨hlt, hcentury⟩ := clock_of_append (hboots ▸ hclock)
      exact absurd (List.append_cancel_left hnames) (timestamp_ne hlt hcentury)

/-- No log is replaced exactly if, until `messages.txt` is there, no log comes again with another
content. -/
theorem keepsMoved_iff (hclock : Clock boots) :
    KeepsMoved config store boots ↔
      (config.prevLogPath.length + 1 + sysLog.length < pathMax → SameAgain config store boots) := by
  constructor
  · intro hkeeps hfits earlier b later b' rest hboots hfirst n c c' htakes htakes'
    have hbefore : Unmarked config store earlier :=
      ⟨hfirst.1, fun e he => hfirst.2 e (List.mem_append_left _ he)⟩
    have hmoves : Moves config (run config store earlier) b none n c :=
      ⟨if_pos ((sysLog_notMem_run_iff hfits).mpr hbefore), hfits, htakes⟩
    have hmoves' : Moves config (run config store (earlier ++ b :: later)) b' none n c' :=
      ⟨if_pos ((sysLog_notMem_run_iff hfits).mpr hfirst), hfits, htakes'⟩
    have hkept := hkeeps earlier b (later ++ [b']) rest (by simpa using hboots) none n c hmoves
    have happend : earlier ++ b :: (later ++ [b']) = (earlier ++ b :: later) ++ [b'] := by simp
    rw [happend, run_concat, lookup_after_of_moves hmoves'] at hkept
    exact (Option.some.inj hkept).symm
  · intro hsame earlier b later rest hboots place n c hmoves
    exact lookup_run_of_moves hclock (hsame hmoves.fits) hboots hmoves

def optLogs : BackupConfig := ⟨"/opt/logs".toList, "/opt/logs/PreviousLogs".toList⟩

def emptyStore : Store := ⟨[], fun _ => none⟩

def appLog : Name := "app.log".toList

/-- Two runs with the system log. -/
def twoBoots : List Boot :=
  [⟨0, [(sysLog, .file ['a'])]⟩, ⟨60, [(sysLog, .file ['b'])]⟩]

theorem keepsMoved_twoBoots : KeepsMoved optLogs emptyStore twoBoots := by
  have hclock : Clock twoBoots := by
    unfold Clock
    decide +kernel
  have hmovable : Movable optLogs.logPath optLogs.prevLogPath sysLog := by decide +kernel
  refine (keepsMoved_iff hclock).mpr fun _ earlier b later b' rest heq hfirst => ?_
  have hmem : b ∈ twoBoots := by simp [heq]
  have hnot := hfirst.2 b (by simp)
  rcases List.mem_cons.mp hmem with rfl | hmem
  · exact absurd ⟨hmovable, rfl⟩ (hnot ['a'])
  · obtain rfl := List.mem_singleton.mp hmem
    exact absurd ⟨hmovable, rfl⟩ (hnot ['b'])

/-- Two runs without it. -/
def unmarkedBoots : List Boot :=
  [⟨0, [(appLog, .file ['a'])]⟩, ⟨60, [(appLog, .file ['b'])]⟩]

/-- The log of the first run is replaced. -/
theorem app_log_replaced : Clock unmarkedBoots ∧ ¬KeepsMoved optLogs emptyStore unmarkedBoots := by
  refine ⟨?_, fun h => ?_⟩
  · unfold Clock
    decide +kernel
  · have hkept := h [] ⟨0, [(appLog, .file ['a'])]⟩ [⟨60, [(appLog, .file ['b'])]⟩] [] rfl none
      appLog ['a'] ⟨rfl, by decide +kernel, by decide +kernel, rfl⟩
    exact absurd hkept (by decide +kernel)

end DcmAgent.Backup.Enabled
